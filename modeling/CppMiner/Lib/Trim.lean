-- SUMMARY: Trimming a list at both ends.
import Mathlib.Data.List.DropRight

/-! # Trimming

`trimBy p s` is `s` without the elements at its two ends that satisfy `p`. It changes
nothing exactly if neither end has one (`trimBy_eq_self_iff`), so lists that have none at
their ends can be put together (`trimBy_append`). -/

namespace Trim

variable {α : Type*} {p : α → Bool} {s t : List α}

def trimBy (p : α → Bool) (s : List α) : List α := (s.dropWhile p).rdropWhile p

theorem dropWhile_eq_self_iff_head : s.dropWhile p = s ↔ ∀ a ∈ s.head?, p a = false := by
  cases s <;> simp [List.dropWhile_eq_self_iff]

theorem rdropWhile_eq_self_iff_getLast : s.rdropWhile p = s ↔ ∀ a ∈ s.getLast?, p a = false := by
  cases s using List.reverseRecOn <;> simp [List.rdropWhile_eq_self_iff]

/-- Nothing is trimmed exactly where both ends are kept. -/
theorem trimBy_eq_self_iff :
    trimBy p s = s ↔ (∀ a ∈ s.head?, p a = false) ∧ ∀ a ∈ s.getLast?, p a = false := by
  rw [← dropWhile_eq_self_iff_head, ← rdropWhile_eq_self_iff_getLast, trimBy]
  constructor
  · intro h
    have hback := (List.rdropWhile_prefix p (l := s.dropWhile p)).length_le
    have hfront : s.dropWhile p = s :=
      (List.dropWhile_suffix p).eq_of_length_le (by rwa [h] at hback)
    exact ⟨hfront, by rwa [hfront] at h⟩
  · rintro ⟨hfront, hback⟩
    rw [hfront, hback]

theorem rdropWhile_append_of_pos (ht : ∀ a ∈ t, p a = true) :
    (s ++ t).rdropWhile p = s.rdropWhile p := by
  have hreverse : ∀ a ∈ t.reverse, p a = true := fun a ha => ht a (List.mem_reverse.mp ha)
  rw [List.rdropWhile, List.reverse_append, List.dropWhile_append_of_pos hreverse, List.rdropWhile]

/-- What is put at the ends to be trimmed is trimmed. -/
theorem trimBy_pad {u : List α} (hs : ∀ a ∈ s, p a = true) (hu : ∀ a ∈ u, p a = true) :
    trimBy p (s ++ t ++ u) = trimBy p t := by
  rw [List.append_assoc, trimBy, List.dropWhile_append_of_pos hs, List.dropWhile_append, trimBy]
  split
  · rename_i hempty
    have hnone : u.dropWhile p = [] := List.dropWhile_eq_nil_iff.mpr hu
    rw [hnone, List.isEmpty_iff.mp hempty]
  · exact rdropWhile_append_of_pos hu

/-- Lists that keep their ends keep them together. -/
theorem trimBy_append (hs : trimBy p s = s) (ht : trimBy p t = t) :
    trimBy p (s ++ t) = s ++ t := by
  rw [trimBy_eq_self_iff] at hs ht ⊢
  constructor
  · intro a ha
    rw [List.head?_append] at ha
    cases hhead : s.head? with
    | none => exact ht.1 a (by simpa [hhead] using ha)
    | some b => exact hs.1 a (by simpa [hhead] using ha)
  · intro a ha
    rw [List.getLast?_append] at ha
    cases hlast : t.getLast? with
    | none => exact hs.2 a (by simpa [hlast] using ha)
    | some b => exact ht.2 a (by simpa [hlast] using ha)

end Trim
