-- SUMMARY: Byte strings, the literals that denote them, and the C character classes.
import Mathlib.Data.List.Basic

/-! # Byte strings

A `std::string` is a list of bytes of any value. Literals are ASCII, so a literal
is the list of the codes of its characters. -/

abbrev Bytes := List UInt8

/-- The bytes of an ASCII literal. -/
def bytes (s : String) : Bytes := s.toList.map Char.toUInt8

attribute [simp] Char.toUInt8

/-- The byte that ends a line. -/
def newline : UInt8 := '\n'.toUInt8

/-- `std::isspace` in the "C" locale: blank, and tab through carriage return. -/
def isspace (c : UInt8) : Bool := c = ' '.toUInt8 || (9 ≤ c && c ≤ 13)

/-- `std::isdigit`. -/
def isdigit (c : UInt8) : Bool := '0'.toUInt8 ≤ c && c ≤ '9'.toUInt8

/-- `std::tolower` in the "C" locale. -/
def tolower (c : UInt8) : UInt8 := if 'A'.toUInt8 ≤ c ∧ c ≤ 'Z'.toUInt8 then c + 32 else c

/-- What holds of the 256 bytes one by one holds of every byte. -/
theorem forall_byte {P : UInt8 → Prop} (h : ∀ n < 256, P (UInt8.ofNat n)) (c : UInt8) : P c := by
  simpa using h c.toNat c.toNat_lt

/-- A scan takes what satisfies its test, up to the first that does not. -/
theorem scan_append {α : Type*} {p : α → Bool} {body rest : List α}
    (hbody : ∀ a ∈ body, p a = true) (hrest : ∀ a ∈ rest.head?, p a = false) :
    (body ++ rest).takeWhile p = body ∧ (body ++ rest).dropWhile p = rest := by
  rw [List.takeWhile_append_of_pos hbody, List.dropWhile_append_of_pos hbody]
  cases rest with
  | nil => simp
  | cons a rest => simp [hrest a rfl]

theorem not_isspace_of_isdigit (c : UInt8) : isdigit c = true → isspace c = false := by
  apply forall_byte (P := fun c => isdigit c = true → isspace c = false)
  decide +kernel
