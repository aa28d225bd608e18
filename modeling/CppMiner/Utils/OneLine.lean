-- SUMMARY: A serialized value is one line: `dump` never emits a raw newline.
import CppMiner.Utils.RoundTrip

/-!
# One line

Newlines in strings and keys are escaped, and nothing else that `dump` writes is a
control character. So a value, at any depth and with any contents, is written
without a newline of its own.
-/

namespace CppMiner.Json

open Value

/-! ## Numbers -/

/-- A string of characters that the scan of a number runs over. -/
def Numeric (s : Bytes) : Prop := ∀ c ∈ s, Parser.isNumberChar c = true

namespace Numeric

theorem append {s t : Bytes} (hs : Numeric s) (ht : Numeric t) : Numeric (s ++ t) := by
  intro c hc
  exact (List.mem_append.mp hc).elim (hs c) (ht c)

theorem take {s : Bytes} (hs : Numeric s) (k : ℕ) : Numeric (s.take k) :=
  fun c hc => hs c (List.mem_of_mem_take hc)

theorem drop {s : Bytes} (hs : Numeric s) (k : ℕ) : Numeric (s.drop k) :=
  fun c hc => hs c (List.mem_of_mem_drop hc)

theorem encode (n : ℕ) : Numeric (Radix.encode 10 n) := by
  intro c hc
  simp [Parser.isNumberChar, Numerals.isdigit_of_mem_encode hc]

theorem zeros (k : ℕ) : Numeric (List.replicate k '0'.toUInt8) := by
  intro c hc
  rw [List.eq_of_mem_replicate hc]
  rfl

theorem stripZeros {s : Bytes} (hs : Numeric s) : Numeric (Numerals.stripZeros s) := by
  intro c hc
  rw [Numerals.stripZeros, List.mem_reverse] at hc
  exact hs c (List.mem_reverse.mp ((List.dropWhile_sublist _).mem hc))

theorem pointed {s : Bytes} (hs : Numeric s) : Numeric (Numerals.pointed s) := by
  intro c hc
  unfold Numerals.pointed at hc
  split at hc
  · exact absurd hc List.not_mem_nil
  · rw [List.mem_cons] at hc
    rcases hc with rfl | hc
    · rfl
    · exact hs c hc

theorem ite {p : Prop} [Decidable p] {s t : Bytes} (hs : Numeric s) (ht : Numeric t) :
    Numeric (if p then s else t) := by
  split
  · exact hs
  · exact ht

/-- Streaming a double emits digits, signs, the point and the exponent mark only. -/
theorem streamDouble (q : ℚ) : Numeric (Numerals.streamDouble q) := by
  have hzero : Numeric (bytes "0") := List.all_eq_true.mp rfl
  have hminus : Numeric (bytes "-") := List.all_eq_true.mp rfl
  have hplus : Numeric (bytes "+") := List.all_eq_true.mp rfl
  have hmark : Numeric (bytes "e") := List.all_eq_true.mp rfl
  have hsign : Numeric (if q < 0 then bytes "-" else []) := hminus.ite (by simp [Numeric])
  have hdigits := encode (Numerals.sixDigits |q|).1
  have hexp : Numeric (Radix.padLeft 2 '0'.toUInt8
      (Radix.encode 10 (Numerals.sixDigits |q|).2.natAbs)) := (zeros _).append (encode _)
  unfold Numerals.streamDouble
  refine hzero.ite (.ite ?_ (.ite ?_ ?_))
  · exact ((((hsign.append (hdigits.take 1)).append (hdigits.drop 1).stripZeros.pointed).append
      hmark).append (hminus.ite hplus)).append hexp
  · exact (hsign.append hzero).append ((zeros _).append hdigits).stripZeros.pointed
  · exact (hsign.append (hdigits.take _)).append (hdigits.drop _).stripZeros.pointed

end Numeric

theorem newline_not_isNumberChar : Parser.isNumberChar newline = false := by decide

theorem newline_notMem_number (n : ℚ) : newline ∉ (Value.number n).dump := by
  intro h
  have hchar : Parser.isNumberChar newline = true := by
    unfold dump at h
    split at h
    · exact Parser.isNumberChar_of_isNumberStart (Parser.isNumberStart_of_mem_toString h)
    · exact Numeric.streamDouble n _ h
  rw [newline_not_isNumberChar] at hchar
  cases hchar

/-! ## Strings -/

theorem newline_notMem_escapeChar (c : UInt8) : newline ∉ escapeChar c := by
  apply forall_byte (P := fun c => newline ∉ escapeChar c)
  decide +kernel

theorem newline_notMem_quote (s : Bytes) : newline ∉ quote s := by
  have hescape : newline ∉ escape s := by
    intro h
    obtain ⟨c, -, hc⟩ := List.mem_flatMap.mp h
    exact newline_notMem_escapeChar c hc
  intro h
  simp only [quote, List.mem_append, List.mem_cons, List.not_mem_nil, or_false] at h
  rcases h with (h | h) | h
  · exact absurd h (by decide)
  · exact hescape h
  · exact absurd h (by decide)

/-! ## Values -/

mutual

/-- No value is written with a raw newline in it. -/
theorem newline_notMem_dump : ∀ v : Value, newline ∉ v.dump
  | .null => by decide
  | .bool true => by decide
  | .bool false => by decide
  | .number n => newline_notMem_number n
  | .string s => newline_notMem_quote s
  | .array xs => by
    have := newline_notMem_dumpElems 0 xs
    simpa [dump, newline] using this
  | .object kvs => by
    have := newline_notMem_dumpMembers 0 kvs
    simpa [dump, newline] using this

theorem newline_notMem_dumpElems : ∀ (i : ℕ) (xs : List Value), newline ∉ dumpElems i xs
  | _, [] => by simp [dumpElems]
  | i, v :: vs => by
    have hv := newline_notMem_dump v
    have hvs := newline_notMem_dumpElems (i + 1) vs
    unfold dumpElems
    split <;> simp_all [bytes, newline]

theorem newline_notMem_dumpMembers :
    ∀ (i : ℕ) (kvs : List (Bytes × Value)), newline ∉ dumpMembers i kvs
  | _, [] => by simp [dumpMembers]
  | i, (k, v) :: kvs => by
    have hk := newline_notMem_quote k
    have hv := newline_notMem_dump v
    have hkvs := newline_notMem_dumpMembers (i + 1) kvs
    unfold dumpMembers
    split <;> simp_all [bytes, newline]

end

end CppMiner.Json
