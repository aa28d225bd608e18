-- SUMMARY: The slot through which the network thread hands the current job to the workers.
import Mathlib.Data.Nat.Basic

/-! # The job queue

Jobs are not consumed one at a time: every worker copies the newest one, so that the
queue is a slot with a counter of what was published to it. Publishing and copying hold
the queue's mutex and are one step each. -/

namespace CppMiner.Threading

/-- Holder for the current job. -/
structure JobQueue (J : Type*) where
  current : Option J := none
  version : UInt64 := 0

variable {J : Type*}

/-- Publishes a new job, bumping the version counter. -/
def JobQueue.publish (q : JobQueue J) (job : J) : JobQueue J where
  current := some job
  version := q.version + 1

/-- The counter counts the jobs published, up to its overflow. -/
theorem JobQueue.version_publish {q : JobQueue J} {n : ℕ} (h : q.version = UInt64.ofNat n)
    (job : J) : (q.publish job).version = UInt64.ofNat (n + 1) := by
  rw [UInt64.ofNat_add, ← h]
  rfl

end CppMiner.Threading
