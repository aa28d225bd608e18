-- SUMMARY: Loops in `Except` and `Option`: when they do not fail, and what they give.
import Mathlib.Data.List.Basic

/-! # Loops that do not fail

A loop whose steps all succeed is the loop over the values they give, and a `mapM`
succeeds only if its steps do. -/

namespace Loops

universe u v

variable {ε : Type u} {α β : Type v} {γ : Type*}

@[simp] theorem ok_bind (a : α) (f : α → Except ε β) : (Except.ok a >>= f) = f a := rfl

@[simp] theorem pure_eq_ok (a : α) : (pure a : Except ε α) = .ok a := rfl

theorem bind_eq_ok {x : Except ε α} {f : α → Except ε β} {b : β} :
    (x >>= f) = .ok b ↔ ∃ a, x = .ok a ∧ f a = .ok b := by
  cases x with
  | ok a => simp
  | error e => simp [bind, Except.bind]

theorem mapM_ok {f : γ → Except ε α} {g : γ → α} {l : List γ} (h : ∀ x ∈ l, f x = .ok (g x)) :
    l.mapM f = .ok (l.map g) := by
  induction l with
  | nil => rfl
  | cons x l ih =>
    rw [List.mapM_cons, h x (by simp), ih fun y hy => h y (by simp [hy])]
    rfl

theorem exists_mapM_eq_ok_iff {f : γ → Except ε α} {l : List γ} :
    (∃ ys, l.mapM f = .ok ys) ↔ ∀ x ∈ l, ∃ y, f x = .ok y := by
  induction l with
  | nil => exact iff_of_true ⟨[], rfl⟩ (by simp)
  | cons x l ih =>
    rw [List.forall_mem_cons, ← ih]
    simp only [List.mapM_cons, bind_eq_ok, pure_eq_ok]
    constructor
    · rintro ⟨_, y, hy, ys, hys, -⟩
      exact ⟨⟨y, hy⟩, ys, hys⟩
    · rintro ⟨⟨y, hy⟩, ys, hys⟩
      exact ⟨_, y, hy, ys, hys, rfl⟩

theorem anyM_ok {f : γ → Except ε Bool} {g : γ → Bool} {l : List γ}
    (h : ∀ x ∈ l, f x = .ok (g x)) : l.anyM f = .ok (l.any g) := by
  induction l with
  | nil => rfl
  | cons x l ih =>
    rw [List.anyM, h x (by simp), ih fun y hy => h y (by simp [hy]), List.any_cons]
    cases g x <;> rfl

theorem mapM_eq_some_iff {f : γ → Option α} {l : List γ} {ys : List α} :
    l.mapM f = some ys ↔ l.map f = ys.map some := by
  induction l generalizing ys with
  | nil => cases ys <;> simp
  | cons x l ih =>
    cases hx : f x with
    | none => cases ys <;> simp [List.mapM_cons, hx]
    | some y =>
      cases ys with
      | nil => simp [List.mapM_cons, hx, Option.bind_eq_some_iff]
      | cons y' ys => simp [List.mapM_cons, hx, ← ih, Option.bind_eq_some_iff, and_comm]

end Loops
