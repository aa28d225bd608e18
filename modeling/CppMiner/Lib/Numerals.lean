-- SUMMARY: The C++ library's conversions between numbers and text: `to_string`, stream output, `stod`, `stoul`.
import Mathlib.Data.List.TakeWhile
import CppMiner.Lib.Double
import CppMiner.Lib.Radix

/-! # Numbers and text

The standard library's conversions over byte strings. A conversion that throws
gives `none`. `stod` covers decimal notation only: hexadecimal floats, infinities
and NaNs need characters its callers never hand over. -/

namespace Numerals

/-! ## Writing -/

/-- `std::to_string` of an integer. -/
def toString (n : ℤ) : Bytes :=
  if n < 0 then '-'.toUInt8 :: Radix.encode 10 n.natAbs else Radix.encode 10 n.natAbs

/-- `std::hex << std::setw(width) << std::setfill('0')`. -/
def hexPadded (n width : ℕ) : Bytes :=
  Radix.padLeft width '0'.toUInt8 (Radix.encode 16 n)

/-- Drop the zeros at the end of a fraction. -/
def stripZeros (s : Bytes) : Bytes :=
  (s.reverse.dropWhile (· = '0'.toUInt8)).reverse

/-- A fraction with its point, or nothing. -/
def pointed (s : Bytes) : Bytes :=
  if s = [] then [] else '.'.toUInt8 :: s

/-- The six significant digits of a positive number and the decimal exponent of the first. -/
def sixDigits (q : ℚ) : ℕ × ℤ :=
  let e := Int.log 10 q
  let m := (Double.roundHalfEven (q / 10 ^ (e - 5))).natAbs
  if m = 10 ^ 6 then (10 ^ 5, e + 1) else (m, e)

/-- `std::ostream << double` with the default precision and format. -/
def streamDouble (q : ℚ) : Bytes :=
  if q = 0 then bytes "0"
  else
    let (m, e) := sixDigits |q|
    let ds := Radix.encode 10 m
    let sign := if q < 0 then bytes "-" else []
    if e < -4 ∨ 6 ≤ e then
      sign ++ ds.take 1 ++ pointed (stripZeros (ds.drop 1)) ++ bytes "e" ++
        (if e < 0 then bytes "-" else bytes "+") ++
        Radix.padLeft 2 '0'.toUInt8 (Radix.encode 10 e.natAbs)
    else if e < 0 then
      sign ++ bytes "0" ++ pointed (stripZeros (List.replicate (e.natAbs - 1) '0'.toUInt8 ++ ds))
    else
      sign ++ ds.take (e.toNat + 1) ++ pointed (stripZeros (ds.drop (e.toNat + 1)))

/-! ## Reading -/

/-- An optional sign: whether it is a minus, and what follows. -/
def sign : Bytes → Bool × Bytes
  | [] => (false, [])
  | c :: s =>
    if c = '-'.toUInt8 then (true, s)
    else if c = '+'.toUInt8 then (false, s)
    else (false, c :: s)

theorem length_sign_le (s : Bytes) : (sign s).2.length ≤ s.length := by
  fun_cases sign s <;> simp_all

/-- An optional fraction: its digits, and what follows. -/
def fraction : Bytes → Bytes × Bytes
  | [] => ([], [])
  | c :: s =>
    if c = '.'.toUInt8 then (s.takeWhile isdigit, s.dropWhile isdigit) else ([], c :: s)

/-- An optional exponent; one without digits counts as absent. -/
def exponent : Bytes → ℤ
  | [] => 0
  | c :: s =>
    if c = 'e'.toUInt8 ∨ c = 'E'.toUInt8 then
      let e : ℤ := Radix.decode 10 ((sign s).2.takeWhile isdigit)
      if (sign s).1 then -e else e
    else 0

/-- `std::stod`: the longest prefix that is a decimal number, rounded to a double. -/
def stod (s : Bytes) : Option ℚ :=
  let (neg, s) := sign (s.dropWhile isspace)
  let ip := s.takeWhile isdigit
  let (fp, s) := fraction (s.dropWhile isdigit)
  if ip ++ fp = [] then none
  else
    let m : ℚ := Radix.decode 10 (ip ++ fp) * 10 ^ (exponent s - fp.length)
    Double.nearest (if neg then -m else m)

/-- Whether a character is a digit of the base. -/
def isDigitOf (b : ℕ) (c : UInt8) : Bool :=
  match Radix.digitVal c with
  | some d => d < b
  | none => false

/-- The `0x` that may come before a hexadecimal numeral. -/
def dropHexPrefix (b : ℕ) : Bytes → Bytes
  | z :: x :: c :: s =>
    if b = 16 ∧ z = '0'.toUInt8 ∧ (x = 'x'.toUInt8 ∨ x = 'X'.toUInt8) ∧ isDigitOf 16 c
    then c :: s else z :: x :: c :: s
  | s => s

/-- `std::stoul` with an explicit base: the value of the longest numeral at the
front, negated modulo `2 ^ 64` after a minus. -/
def stoul (s : Bytes) (base : ℕ) : Option ℕ :=
  let (neg, s) := sign (s.dropWhile isspace)
  let ds := (dropHexPrefix base s).takeWhile (isDigitOf base)
  if ds = [] then none
  else
    let n := Radix.decode base ds
    if 2 ^ 64 ≤ n then none
    else some (if neg then (2 ^ 64 - n) % 2 ^ 64 else n)

/-! ## Writing, then reading -/

theorem isdigit_of_mem_encode {n : ℕ} {c : UInt8} (h : c ∈ Radix.encode 10 n) :
    isdigit c = true := by
  obtain ⟨d, hd, rfl⟩ := Radix.mem_encode (by norm_num) n h
  exact Radix.isdigit_digitChar hd

theorem encode_cons (n : ℕ) : ∃ c s, Radix.encode 10 n = c :: s ∧ isdigit c = true := by
  cases h : Radix.encode 10 n with
  | nil => exact absurd h (Radix.encode_ne_nil (by norm_num) n)
  | cons c s => exact ⟨c, s, rfl, isdigit_of_mem_encode (n := n) (by simp [h])⟩

theorem isdigit_sign (c : UInt8) :
    isdigit c = true → c ≠ '-'.toUInt8 ∧ c ≠ '+'.toUInt8 := by
  apply forall_byte (P := fun c => isdigit c = true → c ≠ '-'.toUInt8 ∧ c ≠ '+'.toUInt8)
  decide +kernel

theorem sign_digit {c : UInt8} (hc : isdigit c = true) (s : Bytes) :
    sign (c :: s) = (false, c :: s) := by
  obtain ⟨hm, hp⟩ := isdigit_sign c hc
  simp only [sign, if_neg hm, if_neg hp]

/-- A string that starts with a digit has no sign. -/
theorem sign_encode (n : ℕ) (s : Bytes) :
    sign (Radix.encode 10 n ++ s) = (false, Radix.encode 10 n ++ s) := by
  obtain ⟨c, t, ht, hc⟩ := encode_cons n
  rw [ht, List.cons_append, sign_digit hc]

theorem dropWhile_isspace_encode (n : ℕ) (s : Bytes) :
    (Radix.encode 10 n ++ s).dropWhile isspace = Radix.encode 10 n ++ s := by
  obtain ⟨c, t, ht, hc⟩ := encode_cons n
  simp [ht, not_isspace_of_isdigit c hc]

/-- `stod` of an integer part and what follows its digits, once blanks and sign are read. -/
theorem stod_of_parts {s tail fp rest : Bytes} {neg : Bool} {n : ℕ}
    (hsign : sign (s.dropWhile isspace) = (neg, Radix.encode 10 n ++ tail))
    (htail : ∀ c ∈ tail.head?, isdigit c = false) (hfrac : fraction tail = (fp, rest)) :
    stod s = Double.nearest
      (if neg then -((n * 10 ^ fp.length + Radix.decode 10 fp) * 10 ^ (exponent rest - fp.length))
      else (n * 10 ^ fp.length + Radix.decode 10 fp) * 10 ^ (exponent rest - fp.length)) := by
  have hall : ∀ c ∈ Radix.encode 10 n, isdigit c = true := fun c hc => isdigit_of_mem_encode hc
  obtain ⟨htake, hdrop⟩ := scan_append hall htail
  have hne : Radix.encode 10 n ++ fp ≠ [] := by
    simp [Radix.encode_ne_nil (show 1 < 10 by norm_num) n]
  have hdec : Radix.decode 10 (Radix.encode 10 n ++ fp) =
      n * 10 ^ fp.length + Radix.decode 10 fp := by
    rw [Radix.decode_append, Radix.decode_encode (by norm_num) (by norm_num)]
  simp only [stod, hsign, htake, hdrop, hfrac, if_neg hne, hdec]
  push_cast
  rfl

/-- `stod` of a numeral, once blanks and sign are read. -/
theorem stod_of_sign {s : Bytes} {neg : Bool} {n : ℕ}
    (h : sign (s.dropWhile isspace) = (neg, Radix.encode 10 n)) :
    stod s = Double.nearest (if neg then -n else n) := by
  rw [← List.append_nil (Radix.encode 10 n)] at h
  rw [stod_of_parts h (by simp) rfl]
  simp [exponent, Radix.decode]

/-- Integers that a double holds exactly are read back as they were written. -/
theorem stod_toString {n : ℤ} (h : |n| ≤ 2 ^ 53) : stod (toString n) = some (n : ℚ) := by
  unfold toString
  split
  · rename_i hn
    have hs : sign (('-'.toUInt8 :: Radix.encode 10 n.natAbs).dropWhile isspace) =
        (true, Radix.encode 10 n.natAbs) := by
      simp [isspace, sign]
    have hval : -((n.natAbs : ℕ) : ℚ) = ((n : ℤ) : ℚ) := by
      have : -(n.natAbs : ℤ) = n := by omega
      rw [← Int.cast_natCast, ← Int.cast_neg, this]
    simp only [stod_of_sign hs, if_true, hval]
    exact Double.nearest_int h
  · rename_i hn
    have hs : sign ((Radix.encode 10 n.natAbs).dropWhile isspace) =
        (false, Radix.encode 10 n.natAbs) := by
      rw [← List.append_nil (Radix.encode 10 n.natAbs), dropWhile_isspace_encode, sign_encode]
    have hval : ((n.natAbs : ℕ) : ℚ) = ((n : ℤ) : ℚ) := by
      have : (n.natAbs : ℤ) = n := by omega
      rw [← Int.cast_natCast, this]
    simp only [stod_of_sign hs, hval]
    exact Double.nearest_int h

theorem dropHexPrefix_of_ne {b : ℕ} (h : b ≠ 16) (s : Bytes) : dropHexPrefix b s = s := by
  unfold dropHexPrefix
  split
  · rw [if_neg fun hprefix => h hprefix.1]
  · rfl

theorem isDigitOf_ten : isDigitOf 10 = isdigit := by
  funext c
  apply forall_byte (P := fun c => isDigitOf 10 c = isdigit c)
  decide +kernel

/-- What `stoul` reads in base 10: whether there is a minus, and the number after it; none
where there is no digit. -/
def signed (s : Bytes) : Option (Bool × ℕ) :=
  let (neg, s) := sign (s.dropWhile isspace)
  let ds := s.takeWhile isdigit
  if ds = [] then none else some (neg, Radix.decode 10 ds)

theorem stoul_eq (s : Bytes) :
    stoul s 10 =
      (signed s).bind fun x =>
        if 2 ^ 64 ≤ x.2 then none
        else some (if x.1 then (2 ^ 64 - x.2) % 2 ^ 64 else x.2) := by
  simp only [stoul, signed, dropHexPrefix_of_ne (by decide : 10 ≠ 16), isDigitOf_ten]
  split <;> rfl

/-- Decimal numerals of an `unsigned long` are read back. -/
theorem stoul_encode {n : ℕ} (h : n < 2 ^ 64) : stoul (Radix.encode 10 n) 10 = some n := by
  have hdigits : ∀ d < 10, isDigitOf 10 (Radix.digitChar d) = true := by decide
  have htake : (Radix.encode 10 n).takeWhile (isDigitOf 10) = Radix.encode 10 n := by
    refine List.takeWhile_eq_self_iff.mpr fun c hc => ?_
    obtain ⟨d, hd, rfl⟩ := Radix.mem_encode (by norm_num) n hc
    exact hdigits d hd
  have hne : Radix.encode 10 n ≠ [] := Radix.encode_ne_nil (by norm_num) n
  have hdec : Radix.decode 10 (Radix.encode 10 n) = n :=
    Radix.decode_encode (by norm_num) (by norm_num) n
  have hstart := dropWhile_isspace_encode n []
  have hsign := sign_encode n []
  rw [List.append_nil] at hstart hsign
  simp only [stoul, hstart, hsign, dropHexPrefix_of_ne (by decide : 10 ≠ 16),
    htake, if_neg hne, hdec, if_neg (not_le.mpr h)]
  rfl

end Numerals
