-- SUMMARY: Handles that are acquired, used and released: which sequences of operations are right, and what they leave held.
import Mathlib.Data.Finset.Basic

/-!
# Handles

A handle is acquired by whoever hands it out, and is not handed out again before it is
released. A sequence of operations is right if it uses and releases only handles that are
held; it then leaves a set of handles held. A handle that stays held is leaked when nobody
knows it any more. -/

namespace Handles

variable {η : Type*} [DecidableEq η]

inductive Op (η : Type*) where
  | acquire (h : η)
  | use (h : η)
  | release (h : η)
  deriving DecidableEq

/-- The handles held after an operation, unless it is wrong. -/
def Op.run (held : Finset η) : Op η → Option (Finset η)
  | .acquire h => if h ∈ held then none else some (insert h held)
  | .use h => if h ∈ held then some held else none
  | .release h => if h ∈ held then some (held.erase h) else none

def run : Finset η → List (Op η) → Option (Finset η)
  | held, [] => some held
  | held, op :: ops => (op.run held).bind fun held => run held ops

variable {held : Finset η} {h : η}

@[simp] theorem run_nil (held : Finset η) : run held [] = some held := rfl

theorem run_append (held : Finset η) (ops ops' : List (Op η)) :
    run held (ops ++ ops') = (run held ops).bind fun held => run held ops' := by
  induction ops generalizing held with
  | nil => rfl
  | cons op ops ih =>
    rw [List.cons_append, run, run]
    cases op.run held with
    | none => rfl
    | some held => exact ih held

theorem run_acquire (hh : h ∉ held) (ops : List (Op η)) :
    run held (.acquire h :: ops) = run (insert h held) ops := by
  simp [run, Op.run, hh]

theorem run_use (hh : h ∈ held) (ops : List (Op η)) :
    run held (.use h :: ops) = run held ops := by
  simp [run, Op.run, hh]

theorem run_release (hh : h ∈ held) (ops : List (Op η)) :
    run held (.release h :: ops) = run (held.erase h) ops := by
  simp [run, Op.run, hh]

/-- Uses of a handle that is held. -/
theorem run_uses (hh : h ∈ held) {ops : List (Op η)} (hops : ∀ op ∈ ops, op = .use h) :
    run held ops = some held := by
  induction ops with
  | nil => rfl
  | cons op ops ih =>
    rw [List.forall_mem_cons] at hops
    rw [hops.1, run_use hh, ih hops.2]

/-- A handle that is acquired and only used stays held. -/
theorem run_opened (hh : h ∉ held) {uses : List (Op η)} (huses : ∀ op ∈ uses, op = .use h) :
    run held (.acquire h :: uses) = some (insert h held) := by
  rw [run_acquire hh, run_uses (Finset.mem_insert_self h held) huses]

/-- A handle that is released again leaves nothing behind. -/
theorem run_bracket (hh : h ∉ held) {uses : List (Op η)} (huses : ∀ op ∈ uses, op = .use h) :
    run held (.acquire h :: uses ++ [.release h]) = some held := by
  rw [run_append, run_opened hh huses, Option.bind_some,
    run_release (Finset.mem_insert_self h held), Finset.erase_insert hh, run_nil]

end Handles
