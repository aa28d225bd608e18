-- SUMMARY: Reading a list through a cursor: accesses that are checked, scans, and what is left after the cursor.
import Mathlib.Data.List.Infix
import Mathlib.Tactic.Common
import CppMiner.Lib.Loops

/-! # Cursors

A cursor is an index into a list. An access at or beyond the end is a fault, and so is a loop
or a recursion that has not ended when its fuel is used up. What is left to read is a suffix
of the list, and a suffix `s` has one index, `offset text s`; a function that reads the list
through a cursor is compared with one on suffixes at these indices. -/

namespace Cursor

inductive Fault where
  | outOfBounds
  | outOfFuel

variable {α : Type} {text s : List α}

def charAt (text : List α) (i : ℕ) : Except Fault α :=
  match text[i]? with
  | some c => .ok c
  | none => .error .outOfBounds

/-- The cursor after the elements with a property. -/
def scan (text : List α) (p : α → Bool) : ℕ → ℕ → Except Fault ℕ
  | 0, _ => .error .outOfFuel
  | fuel + 1, pos =>
    if pos < text.length then do
      let c ← charAt text pos
      if p c then scan text p fuel (pos + 1) else return pos
    else return pos

/-- Where a suffix begins. -/
def offset (text s : List α) : ℕ := text.length - s.length

theorem offset_le (text s : List α) : offset text s ≤ text.length := Nat.sub_le _ _

@[simp] theorem offset_nil (text : List α) : offset text [] = text.length := rfl

theorem offset_drop {i : ℕ} (h : i ≤ text.length) : offset text (text.drop i) = i := by
  rw [offset, List.length_drop]
  omega

theorem offset_add_length (h : s <:+ text) : offset text s + s.length = text.length :=
  Nat.sub_add_cancel h.length_le

theorem drop_offset (h : s <:+ text) : text.drop (offset text s) = s :=
  (List.suffix_iff_eq_drop.mp h).symm

theorem offset_lt_offset {t : List α} (h : s <:+ text) (hlt : t.length < s.length) :
    offset text s < offset text t := by
  have hle := h.length_le
  rw [offset, offset]
  omega

theorem suffix_of_cons {c : α} (h : c :: s <:+ text) : s <:+ text :=
  (List.suffix_cons c s).trans h

theorem offset_cons {c : α} (h : c :: s <:+ text) : offset text (c :: s) + 1 = offset text s := by
  have hle := h.length_le
  rw [List.length_cons] at hle
  rw [offset, offset, List.length_cons]
  omega

theorem offset_cons_lt {c : α} (h : c :: s <:+ text) : offset text (c :: s) < text.length := by
  rw [← offset_add_length h, List.length_cons]
  omega

theorem charAt_offset {c : α} (h : c :: s <:+ text) :
    charAt text (offset text (c :: s)) = .ok c := by
  obtain ⟨front, rfl⟩ := h
  rw [charAt, offset, List.length_append, Nat.add_sub_cancel, List.getElem?_append_right le_rfl,
    Nat.sub_self]
  rfl

/-- A scan stops where the elements with the property end. -/
theorem scan_offset {p : α → Bool} {fuel : ℕ} (h : s <:+ text) (hfuel : s.length < fuel) :
    scan text p fuel (offset text s) = .ok (offset text (s.dropWhile p)) := by
  induction s generalizing fuel with
  | nil =>
    obtain ⟨fuel, rfl⟩ := Nat.exists_eq_add_of_lt hfuel
    simp [scan]
  | cons c s ih =>
    obtain ⟨fuel, rfl⟩ := Nat.exists_eq_add_of_lt (Nat.zero_lt_of_lt hfuel)
    rw [Nat.zero_add] at hfuel ⊢
    rw [List.length_cons, Nat.add_lt_add_iff_right] at hfuel
    rw [scan, if_pos (offset_cons_lt h), charAt_offset h, Loops.ok_bind]
    by_cases hc : p c = true
    · rw [if_pos hc, offset_cons h, ih (suffix_of_cons h) hfuel, List.dropWhile_cons_of_pos hc]
    · rw [if_neg hc, List.dropWhile_cons_of_neg hc]
      rfl

end Cursor
