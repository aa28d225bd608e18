-- SUMMARY: Positional notation over bytes: digits, shortest and fixed-width numerals, and reading them back.
import Mathlib.Data.List.Induction
import Mathlib.Data.Nat.Digits.Defs
import Mathlib.Tactic.Ring
import CppMiner.Lib.Bytes

/-! # Positional notation

`encode` is the shortest numeral of a number, `fixed` the numeral of a given
width, `decode` the number a digit string denotes. Two equations drive every
proof: a numeral is the numeral of the quotient followed by the digit of the
remainder (`encode_step`), and below the base it is one digit (`encode_lt`). -/

namespace Radix

/-! ## Digits -/

/-- The character of the digit `d < 36`, in lower case. -/
def digitChar (d : Nat) : UInt8 :=
  if d < 10 then '0'.toUInt8 + d.toUInt8 else 'a'.toUInt8 + (d - 10).toUInt8

/-- The value of a digit character of either case. -/
def digitVal (c : UInt8) : Option Nat :=
  if '0'.toUInt8 ≤ c ∧ c ≤ '9'.toUInt8 then some (c.toNat - 48)
  else if 'a'.toUInt8 ≤ c ∧ c ≤ 'z'.toUInt8 then some (c.toNat - 87)
  else if 'A'.toUInt8 ≤ c ∧ c ≤ 'Z'.toUInt8 then some (c.toNat - 55)
  else none

theorem digitVal_digitChar {d : Nat} (h : d < 36) : digitVal (digitChar d) = some d := by
  revert d
  decide

theorem isdigit_digitChar {d : Nat} (h : d < 10) : isdigit (digitChar d) = true := by
  revert d
  decide

/-! ## Numerals -/

/-- The number a string of digits denotes; characters that are no digit count as zero. -/
def decode (b : Nat) (s : Bytes) : Nat :=
  s.foldl (fun n c => n * b + (digitVal c).getD 0) 0

/-- The shortest numeral of `n` in base `b`. -/
def encode (b n : Nat) : Bytes :=
  if n = 0 then [digitChar 0] else (b.digits n).reverse.map digitChar

/-- The `w` low digits of `n` in base `b`, the most significant first. -/
def fixed (b : Nat) : Nat → Nat → Bytes
  | 0, _ => []
  | w + 1, n => fixed b w (n / b) ++ [digitChar (n % b)]

/-- Pad on the left up to the width `w`; a longer string stays as it is. -/
def padLeft (w : Nat) (fill : UInt8) (s : Bytes) : Bytes :=
  List.replicate (w - s.length) fill ++ s

@[simp] theorem decode_snoc (b : Nat) (s : Bytes) (c : UInt8) :
    decode b (s ++ [c]) = decode b s * b + (digitVal c).getD 0 := by
  simp [decode]

theorem decode_append (b : Nat) (s t : Bytes) :
    decode b (s ++ t) = decode b s * b ^ t.length + decode b t := by
  induction t using List.reverseRecOn with
  | nil => simp [decode]
  | append_singleton t c ih =>
    rw [← List.append_assoc, decode_snoc, ih, decode_snoc, List.length_append,
      List.length_singleton, pow_succ]
    ring

@[simp] theorem length_fixed (b w n : Nat) : (fixed b w n).length = w := by
  induction w generalizing n with
  | zero => rfl
  | succ w ih => simp [fixed, ih]

theorem encode_lt {b n : Nat} (h : n < b) : encode b n = [digitChar n] := by
  unfold encode
  split
  · simp [*]
  · rename_i hn
    simp [Nat.digits_of_lt b n hn h]

theorem encode_step {b n : Nat} (hb : 1 < b) (h : b ≤ n) :
    encode b n = encode b (n / b) ++ [digitChar (n % b)] := by
  have hn : n ≠ 0 := by omega
  have hq : n / b ≠ 0 := (Nat.div_pos h (by omega)).ne'
  simp only [encode, hn, hq, if_false]
  rw [Nat.digits_def' hb (by omega)]
  simp

/-- Strong induction along the digits of a number. -/
theorem digit_induction {b : Nat} (hb : 1 < b) {P : Nat → Prop}
    (lt : ∀ n, n < b → P n) (step : ∀ n, b ≤ n → P (n / b) → P n) (n : Nat) : P n := by
  induction n using Nat.strong_induction_on with
  | _ n ih =>
    by_cases h : n < b
    · exact lt n h
    · exact step n (by omega) (ih _ (Nat.div_lt_self (by omega) hb))

theorem decode_encode {b : Nat} (hb : 1 < b) (hb' : b ≤ 36) (n : Nat) :
    decode b (encode b n) = n := by
  induction n using digit_induction hb with
  | lt n h =>
    rw [encode_lt h]
    simp [decode, digitVal_digitChar (show n < 36 by omega)]
  | step n h ih =>
    have hmod : n % b < 36 := by
      have := Nat.mod_lt n (show b > 0 by omega)
      omega
    rw [encode_step hb h, decode_snoc, ih, digitVal_digitChar hmod]
    exact Nat.div_add_mod' n b

theorem mem_encode {b : Nat} (hb : 1 < b) (n : Nat) {c : UInt8} (hc : c ∈ encode b n) :
    ∃ d < b, c = digitChar d := by
  induction n using digit_induction hb with
  | lt n h =>
    rw [encode_lt h] at hc
    exact ⟨n, h, by simpa using hc⟩
  | step n h ih =>
    rw [encode_step hb h, List.mem_append, List.mem_singleton] at hc
    rcases hc with hc | rfl
    · exact ih hc
    · exact ⟨n % b, Nat.mod_lt n (by omega), rfl⟩

theorem encode_ne_nil {b : Nat} (hb : 1 < b) (n : Nat) : encode b n ≠ [] := by
  by_cases h : n < b
  · simp [encode_lt h]
  · simp [encode_step hb (show b ≤ n by omega)]

/-- A numeral has as many digits as its number needs. -/
theorem lt_pow_length_encode {b : Nat} (hb : 1 < b) (n : Nat) : n < b ^ (encode b n).length := by
  induction n using digit_induction hb with
  | lt n h => simpa [encode_lt h] using h
  | step n h ih =>
    rw [encode_step hb h, List.length_append, List.length_singleton, pow_succ,
      ← Nat.div_lt_iff_lt_mul (by omega)]
    exact ih

/-- A number of more than one digit, without its last. -/
theorem div_lt_pow {b w n : Nat} (hb : 0 < b) (hn : b ≤ n) (h : n < b ^ (w + 1)) :
    0 < w ∧ n / b < b ^ w := by
  constructor
  · rcases Nat.eq_zero_or_pos w with rfl | hw
    · simp at h; omega
    · exact hw
  · rw [Nat.div_lt_iff_lt_mul hb]
    simpa [pow_succ] using h

theorem length_encode_le {b : Nat} (hb : 1 < b) {w n : Nat} (hw : 0 < w) (h : n < b ^ w) :
    (encode b n).length ≤ w := by
  induction w generalizing n with
  | zero => omega
  | succ w ih =>
    by_cases hn : n < b
    · rw [encode_lt hn]
      exact hw
    · obtain ⟨hw, hq⟩ := div_lt_pow (by omega) (show b ≤ n by omega) h
      have := ih hw hq
      simp only [encode_step hb (show b ≤ n by omega), List.length_append, List.length_singleton]
      omega

/-! ## Fixed width -/

theorem fixed_zero (b w : Nat) : fixed b w 0 = List.replicate w (digitChar 0) := by
  induction w with
  | zero => rfl
  | succ w ih => simp [fixed, ih, List.replicate_succ']

theorem mem_fixed {b : Nat} (hb : 0 < b) (w n : Nat) {c : UInt8} (hc : c ∈ fixed b w n) :
    ∃ d < b, c = digitChar d := by
  induction w generalizing n with
  | zero => cases hc
  | succ w ih =>
    rw [fixed, List.mem_append, List.mem_singleton] at hc
    rcases hc with hc | rfl
    · exact ih _ hc
    · exact ⟨n % b, Nat.mod_lt n hb, rfl⟩

/-- A numeral of a fixed width denotes the number up to what the width can hold. -/
theorem decode_fixed {b : Nat} (hb : 0 < b) (hb' : b ≤ 36) (w n : Nat) :
    decode b (fixed b w n) = n % b ^ w := by
  induction w generalizing n with
  | zero =>
    rw [pow_zero, Nat.mod_one]
    rfl
  | succ w ih =>
    have hdigit : n % b < 36 := lt_of_lt_of_le (Nat.mod_lt n hb) hb'
    rw [fixed, decode_snoc, ih, digitVal_digitChar hdigit, Option.getD_some, pow_succ',
      Nat.mod_mul]
    ring

/-- Padding with zeros turns the shortest numeral into the fixed-width one. -/
theorem padLeft_encode {b : Nat} (hb : 1 < b) {w n : Nat} (hw : 0 < w) (h : n < b ^ w) :
    padLeft w (digitChar 0) (encode b n) = fixed b w n := by
  induction w generalizing n with
  | zero => omega
  | succ w ih =>
    by_cases hn : n < b
    · simp [encode_lt hn, padLeft, fixed, Nat.div_eq_of_lt hn, Nat.mod_eq_of_lt hn, fixed_zero]
    · obtain ⟨hw, hq⟩ := div_lt_pow (by omega) (show b ≤ n by omega) h
      have := ih hw hq
      simp only [padLeft] at this
      simp [padLeft, fixed, encode_step hb (show b ≤ n by omega), ← this]

/-- A padded numeral has a fixed width that is at least the one asked for. -/
theorem padLeft_eq_fixed {b : Nat} (hb : 1 < b) (w n : Nat) :
    padLeft w (digitChar 0) (encode b n) = fixed b (max w (encode b n).length) n := by
  have hlt := lt_pow_length_encode hb n
  have hpos : 0 < (encode b n).length := List.length_pos_iff.mpr (encode_ne_nil hb n)
  have hmax : n < b ^ max w (encode b n).length :=
    lt_of_lt_of_le hlt (Nat.pow_le_pow_right (by omega) (le_max_right _ _))
  rw [← padLeft_encode hb (by omega) hmax]
  simp only [padLeft]
  congr 2
  omega

/-- The leading digits are the numeral of a quotient. -/
theorem take_fixed (b : Nat) {k w : Nat} (h : k ≤ w) (n : Nat) :
    (fixed b w n).take k = fixed b k (n / b ^ (w - k)) := by
  induction w generalizing n with
  | zero =>
    obtain rfl : k = 0 := by omega
    rfl
  | succ w ih =>
    by_cases hk : k = w + 1
    · subst hk
      rw [List.take_of_length_le (by simp), Nat.sub_self, pow_zero, Nat.div_one]
    · have hle : k ≤ w := by omega
      rw [fixed, List.take_append_of_le_length (by simpa using hle), ih hle, Nat.div_div_eq_div_mul,
        ← pow_succ', Nat.succ_sub hle]

/-- Numerals of one width are those of different numbers. -/
theorem fixed_inj {b : Nat} (hb : 0 < b) (hb' : b ≤ 36) {w n m : Nat} (hn : n < b ^ w)
    (hm : m < b ^ w) (h : fixed b w n = fixed b w m) : n = m := by
  induction w generalizing n m with
  | zero =>
    rw [pow_zero] at hn hm
    omega
  | succ w ih =>
    rw [pow_succ, ← Nat.div_lt_iff_lt_mul hb] at hn hm
    obtain ⟨hquot, hdigit⟩ := List.append_inj' h rfl
    have hrem : n % b = m % b := by
      have hval := congrArg digitVal (List.cons.inj hdigit).1
      rw [digitVal_digitChar (lt_of_lt_of_le (Nat.mod_lt n hb) hb'),
        digitVal_digitChar (lt_of_lt_of_le (Nat.mod_lt m hb) hb')] at hval
      exact Option.some.inj hval
    rw [← Nat.div_add_mod n b, ih hn hm hquot, hrem, Nat.div_add_mod]

end Radix
