-- SUMMARY: The last element of a list with a property that may depend on what came before it.
import Mathlib.Data.List.Induction

/-! # Latest elements

`Latest p l before x` says that `x`, after the elements `before`, is the last of the list
for which `p` holds. Reading a list from its end settles it (`latest_append_singleton`). -/

variable {α : Type*} {p : List α → α → Prop}

def Latest (p : List α → α → Prop) (l before : List α) (x : α) : Prop :=
  ∃ after, l = before ++ x :: after ∧ p before x ∧
    ∀ mid y post, after = mid ++ y :: post → ¬ p (before ++ x :: mid) y

namespace Latest

theorem not_nil (before : List α) (x : α) : ¬ Latest p [] before x := by
  rintro ⟨after, h, -⟩
  simp at h

/-- The last element is the latest if it has the property; if not, the latest is before it. -/
theorem append_singleton {l before : List α} {x y : α} :
    Latest p (l ++ [y]) before x ↔
      p l y ∧ before = l ∧ x = y ∨ ¬ p l y ∧ Latest p l before x := by
  constructor
  · rintro ⟨after, hl, hx, hafter⟩
    -- the new element is the latest itself, or one of those after the latest
    cases after using List.reverseRecOn with
    | nil =>
      obtain ⟨rfl, hxy⟩ := List.append_inj' hl rfl
      obtain rfl : y = x := by simpa using hxy
      exact .inl ⟨hx, rfl, rfl⟩
    | append_singleton after z =>
      rw [← List.cons_append, ← List.append_assoc] at hl
      obtain ⟨rfl, hyz⟩ := List.append_inj' hl rfl
      obtain rfl : y = z := by simpa using hyz
      refine .inr ⟨hafter after y [] rfl, after, rfl, hx, fun mid w post hmid => ?_⟩
      exact hafter mid w (post ++ [y]) (by rw [hmid]; simp)
  · rintro (⟨hp, rfl, rfl⟩ | ⟨hp, after, rfl, hx, hafter⟩)
    · refine ⟨[], rfl, hp, fun mid w post hmid => ?_⟩
      simp at hmid
    · refine ⟨after ++ [y], by simp, hx, fun mid w post hmid => ?_⟩
      cases post using List.reverseRecOn with
      | nil =>
        obtain ⟨rfl, hyw⟩ := List.append_inj' hmid rfl
        obtain rfl : y = w := by simpa using hyw
        exact hp
      | append_singleton post z =>
        rw [← List.cons_append, ← List.append_assoc] at hmid
        exact hafter mid w post (List.append_inj' hmid rfl).1

end Latest
