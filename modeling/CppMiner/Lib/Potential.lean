-- SUMMARY: How many steps an agent of a transition system can take: each is paid out of a potential.
import CppMiner.Lib.Transition

/-!
# Potentials

Whether the runs of a system are finite is seldom up to one agent alone, but how many of
their steps an agent takes often is. A potential is a number for each state that the
agent's own steps lower and that the other steps raise by no more than a given gain. In
a run the agent then takes at most as many steps as the potential was at first, and what
was gained on the way (`Potential.count_le`).
-/

namespace TransitionSystem

variable {σ ℓ : Type*} {S : TransitionSystem σ ℓ} {P : σ → ℓ → Prop}

/-- What the steps of a run add up to, each weighed where it is taken. -/
def total (S : TransitionSystem σ ℓ) (f : σ → ℓ → ℕ) : σ → List ℓ → ℕ
  | _, [] => 0
  | s, l :: ls => f s l + S.total f (S.next s l) ls

/-- How many of the steps `own` picks out. -/
def count (S : TransitionSystem σ ℓ) (own : σ → ℓ → Bool) : σ → List ℓ → ℕ :=
  S.total fun s l => (own s l).toNat

@[simp] theorem total_zero (s : σ) (ls : List ℓ) : S.total (fun _ _ => 0) s ls = 0 := by
  induction ls generalizing s with
  | nil => rfl
  | cons l ls ih => rw [total, ih]

theorem Valid.mono {Q : σ → ℓ → Prop} (h : ∀ s l, P s l → Q s l) {s : σ} {ls : List ℓ}
    (hv : S.Valid P s ls) : S.Valid Q s ls := by
  induction ls generalizing s with
  | nil => trivial
  | cons l ls ih => exact ⟨⟨hv.1.1, h s l hv.1.2⟩, ih hv.2⟩

/-- What every step keeps holds all along a run, and at its end. -/
theorem Valid.of_kept {I : σ → Prop}
    (hI : ∀ s l, S.Reachable s → S.Enabled s l → I s → I (S.next s l)) {s : σ} {ls : List ℓ}
    (h : S.Reachable s) (hs : I s) (hrun : S.IsRun s ls) :
    S.Valid (fun s _ => I s) s ls ∧ I (S.exec s ls) := by
  induction ls generalizing s with
  | nil => exact ⟨trivial, hs⟩
  | cons l ls ih =>
    obtain ⟨⟨he, -⟩, hrun⟩ := hrun
    obtain ⟨hvalid, hend⟩ := ih (.step h he trivial) (hI s l h he hs) hrun
    exact ⟨⟨⟨he, hs⟩, hvalid⟩, hend⟩

/-- A run from a reachable state ends in one. -/
theorem Reach.exec_of_valid {s : σ} {ls : List ℓ} (h : S.Reachable s) (hv : S.Valid P s ls) :
    S.Reachable (S.exec s ls) := h.exec (hv.mono fun _ _ _ => trivial)

/-- The steps that `own` picks out are paid for by `μ`, wherever a run can be. -/
def Potential (S : TransitionSystem σ ℓ) (P : σ → ℓ → Prop) (own : σ → ℓ → Bool)
    (gain : σ → ℓ → ℕ) (μ : σ → ℕ) : Prop :=
  ∀ s l, S.Reachable s → S.Enabled s l → P s l →
    (own s l).toNat + μ (S.next s l) ≤ μ s + gain s l

theorem Potential.count_le {own : σ → ℓ → Bool} {gain : σ → ℓ → ℕ} {μ : σ → ℕ}
    (h : S.Potential P own gain μ) {s : σ} {ls : List ℓ} (hs : S.Reachable s)
    (hv : S.Valid P s ls) :
    S.count own s ls + μ (S.exec s ls) ≤ μ s + S.total gain s ls := by
  induction ls generalizing s with
  | nil => simp [count, total, exec]
  | cons l ls ih =>
    obtain ⟨⟨he, hP⟩, hv⟩ := hv
    have hstep := h s l hs he hP
    have hrest := ih (.step hs he trivial) hv
    simp only [count, total] at hrest ⊢
    change _ + μ (S.exec (S.next s l) ls) ≤ _
    omega

end TransitionSystem
