-- SUMMARY: Forward simulation: every history of one transition system is a history of another.
import CppMiner.Lib.Transition

/-!
# Simulations

Some labels of a system are visible from outside, as an event. The history of a run is
the list of its visible events. A simulation relates the states of two systems so that
each step of the first is answered by a run of the second that shows the same event, or
none if the step shows none. The histories of the first are then histories of the second.
-/

namespace TransitionSystem

variable {σ ℓ τ m ε : Type*} {S : TransitionSystem σ ℓ} {T : TransitionSystem τ m}
  {R : σ → τ → Prop} {shown : ℓ → Option ε} {shown' : m → Option ε}

theorem isRun_singleton {t : τ} {l : m} (h : T.Enabled t l) : T.IsRun t [l] :=
  ⟨⟨h, trivial⟩, trivial⟩

/-- Related states answer each other's steps, from left to right. -/
structure Simulation (S : TransitionSystem σ ℓ) (T : TransitionSystem τ m)
    (shown : ℓ → Option ε) (shown' : m → Option ε) (R : σ → τ → Prop) : Prop where
  init : R S.init T.init
  step : ∀ s t l, R s t → S.Enabled s l →
    ∃ ms, T.IsRun t ms ∧ ms.filterMap shown' = (shown l).toList ∧ R (S.next s l) (T.exec t ms)

/-- A run of the first system is answered by one of the second with the same history. -/
theorem Simulation.run (h : Simulation S T shown shown' R) {s : σ} {t : τ} {ls : List ℓ}
    (hR : R s t) (hv : S.IsRun s ls) :
    ∃ ms, T.IsRun t ms ∧ ms.filterMap shown' = ls.filterMap shown ∧
      R (S.exec s ls) (T.exec t ms) := by
  induction ls generalizing s t with
  | nil => exact ⟨[], trivial, rfl, hR⟩
  | cons l ls ih =>
    obtain ⟨ms, hms, hshown, hR'⟩ := h.step s t l hR hv.1.1
    obtain ⟨ms', hms', hshown', hR''⟩ := ih hR' hv.2
    refine ⟨ms ++ ms', hms.append hms', ?_, ?_⟩
    · rw [List.filterMap_append, hshown, hshown', List.filterMap_cons]
      cases shown l <;> rfl
    · rw [exec_append]
      exact hR''

end TransitionSystem
