-- SUMMARY: Labelled transition systems: runs, reachable states, and the invariant rules.
import Mathlib.Data.List.Basic

/-! # Transition systems

A system is an initial state, the labels a state enables, and the state a label
leads to. An environment is constrained by a condition `P` on the state before a
step and its label: `Reach P` are the states that some run reaches all of whose
steps meet `P`, and `Reachable` those that any run reaches. An invariant is proved
once, on one step (`Reach.invariant`). -/

structure TransitionSystem (σ ℓ : Type*) where
  init : σ
  Enabled : σ → ℓ → Prop
  next : σ → ℓ → σ

namespace TransitionSystem

variable {σ ℓ : Type*} {S : TransitionSystem σ ℓ} {P : σ → ℓ → Prop}

/-- The states reached by runs all of whose steps meet the condition. -/
inductive Reach (S : TransitionSystem σ ℓ) (P : σ → ℓ → Prop) : σ → Prop where
  | init : Reach S P S.init
  | step {s : σ} {l : ℓ} : Reach S P s → S.Enabled s l → P s l → Reach S P (S.next s l)

/-- The states that any run reaches. -/
abbrev Reachable (S : TransitionSystem σ ℓ) : σ → Prop := Reach S fun _ _ => True

/-- An invariant of a conditioned system: it holds at first, and an enabled step
that meets the condition preserves it. -/
theorem Reach.invariant {I : σ → Prop} (hinit : I S.init)
    (hstep : ∀ s l, I s → S.Enabled s l → P s l → I (S.next s l))
    {s : σ} (h : S.Reach P s) : I s := by
  induction h with
  | init => exact hinit
  | step _ he hP ih => exact hstep _ _ ih he hP

/-- The step of an invariant may use another one that is known to hold. -/
theorem Reach.invariant_of {J I : σ → Prop} (hJ : ∀ s, S.Reach P s → J s) (hinit : I S.init)
    (hstep : ∀ s l, J s → I s → S.Enabled s l → P s l → I (S.next s l))
    {s : σ} (h : S.Reach P s) : I s := by
  induction h with
  | init => exact hinit
  | step hr he hP ih => exact hstep _ _ (hJ _ hr) ih he hP

theorem Reach.mono {Q : σ → ℓ → Prop} (h : ∀ s l, P s l → Q s l) {s : σ} (hs : S.Reach P s) :
    S.Reach Q s := by
  induction hs with
  | init => exact .init
  | step _ he hP ih => exact .step ih he (h _ _ hP)

/-- A measure that never decreases and is small at the end of a run was small all along. -/
theorem Reach.bounded {f : σ → ℕ} {N : ℕ}
    (hmono : ∀ s l, S.Reach P s → S.Enabled s l → f s ≤ f (S.next s l))
    {s : σ} (h : S.Reach P s) (hN : f s < N) :
    S.Reach (fun s l => P s l ∧ f (S.next s l) < N) s := by
  induction h with
  | init => exact .init
  | step hr he hP ih =>
    exact .step (ih (Nat.lt_of_le_of_lt (hmono _ _ hr he) hN)) he ⟨hP, hN⟩

/-- A system that moves as another does, or stands, as seen through `f`: its runs are
runs of the other. -/
theorem Reach.map {τ m : Type*} {T : TransitionSystem τ m} (f : σ → τ) (hinit : f S.init = T.init)
    (hstep : ∀ s l, S.Enabled s l → P s l →
      f (S.next s l) = f s ∨ ∃ k, T.Enabled (f s) k ∧ f (S.next s l) = T.next (f s) k)
    {s : σ} (h : S.Reach P s) : T.Reachable (f s) := by
  induction h with
  | init =>
    rw [hinit]
    exact .init
  | step _ he hP ih =>
    rcases hstep _ _ he hP with heq | ⟨k, hk, heq⟩
    · rwa [heq]
    · rw [heq]
      exact .step ih hk trivial

/-! ## Systems given by a partial step function -/

/-- The system of a step function that is undefined where a label is not enabled. -/
def ofStep (init : σ) (step : σ → ℓ → Option σ) : TransitionSystem σ ℓ where
  init := init
  Enabled s l := (step s l).isSome
  next s l := (step s l).getD s

instance (init : σ) (step : σ → ℓ → Option σ) (s : σ) (l : ℓ) :
    Decidable ((ofStep init step).Enabled s l) :=
  inferInstanceAs (Decidable ((step s l).isSome = true))

theorem step_eq_some {init : σ} {step : σ → ℓ → Option σ} {s : σ} {l : ℓ}
    (h : (ofStep init step).Enabled s l) : step s l = some ((ofStep init step).next s l) := by
  obtain ⟨s', hs'⟩ := Option.isSome_iff_exists.mp h
  simp [ofStep, hs']

theorem enabled_of_step (init : σ) {step : σ → ℓ → Option σ} {s s' : σ} {l : ℓ}
    (h : step s l = some s') :
    (ofStep init step).Enabled s l ∧ (ofStep init step).next s l = s' := by
  simp [ofStep, h]

/-! ## Executing a list of labels -/

/-- The state that a list of labels leads to. -/
def exec (S : TransitionSystem σ ℓ) (s : σ) (ls : List ℓ) : σ := ls.foldl S.next s

/-- Every label is enabled where it is taken, and meets the condition there. -/
def Valid (S : TransitionSystem σ ℓ) (P : σ → ℓ → Prop) : σ → List ℓ → Prop
  | _, [] => True
  | s, l :: ls => (S.Enabled s l ∧ P s l) ∧ S.Valid P (S.next s l) ls

instance Valid.decidable [∀ s l, Decidable (S.Enabled s l)] [∀ s l, Decidable (P s l)] :
    ∀ (s : σ) (ls : List ℓ), Decidable (S.Valid P s ls)
  | _, [] => .isTrue trivial
  | s, l :: ls =>
    have := Valid.decidable (S.next s l) ls
    inferInstanceAs (Decidable ((S.Enabled s l ∧ P s l) ∧ S.Valid P (S.next s l) ls))

/-- The labels are enabled, with no condition on the environment. -/
abbrev IsRun (S : TransitionSystem σ ℓ) : σ → List ℓ → Prop := S.Valid fun _ _ => True

theorem Reach.exec {s : σ} {ls : List ℓ} (h : S.Reach P s) (hv : S.Valid P s ls) :
    S.Reach P (S.exec s ls) := by
  induction ls generalizing s with
  | nil => exact h
  | cons l ls ih => exact ih (.step h hv.1.1 hv.1.2) hv.2

theorem exec_append (s : σ) (ls ls' : List ℓ) :
    S.exec s (ls ++ ls') = S.exec (S.exec s ls) ls' := List.foldl_append

/-- A run goes through a step whose condition is known by other means. -/
theorem Reach.through {s : σ} {ls ls' : List ℓ} {l : ℓ} (h : S.Reach P (S.exec s ls))
    (he : S.Enabled (S.exec s ls) l) (hp : P (S.exec s ls) l)
    (hv : S.Valid P (S.next (S.exec s ls) l) ls') : S.Reach P (S.exec s (ls ++ l :: ls')) := by
  rw [exec_append]
  exact (h.step he hp).exec hv

theorem Valid.append {s : σ} {ls ls' : List ℓ} (h : S.Valid P s ls)
    (h' : S.Valid P (S.exec s ls) ls') : S.Valid P s (ls ++ ls') := by
  induction ls generalizing s with
  | nil => exact h'
  | cons l ls ih => exact ⟨h.1, ih h.2 h'⟩

theorem Valid.of_append {s : σ} {ls ls' : List ℓ} (h : S.Valid P s (ls ++ ls')) :
    S.Valid P s ls ∧ S.Valid P (S.exec s ls) ls' := by
  induction ls generalizing s with
  | nil => exact ⟨trivial, h⟩
  | cons l ls ih =>
    obtain ⟨h₁, h₂⟩ := ih h.2
    exact ⟨⟨h.1, h₁⟩, h₂⟩

end TransitionSystem
