-- SUMMARY: The records the Stratum client and the engine exchange: jobs and share counters.
import Mathlib.Data.Rat.Defs
import CppMiner.Lib.Bytes

namespace CppMiner.Miner

/-- A single unit of mining work handed out by a pool. -/
structure MiningJob where
  jobId : Bytes := []
  prevHash : Bytes := []
  coinbase1 : Bytes := []
  coinbase2 : Bytes := []
  merkleBranches : List Bytes := []
  version : Bytes := []
  bits : Bytes := []
  time : Bytes := []
  /-- Discard all in-flight shares for old jobs. -/
  cleanJobs : Bool := false
  extranonce1 : Bytes := []
  extranonce2Size : UInt32 := 4
  difficulty : ℚ := 1
  seedHash : Bytes := []
  blob : Bytes := []

/-- The share counters of the engine. -/
structure Counters where
  sharesAccepted : ℕ := 0
  sharesRejected : ℕ := 0
  deriving DecidableEq

def Counters.recordShareResult (c : Counters) (accepted : Bool) : Counters :=
  if accepted then { c with sharesAccepted := c.sharesAccepted + 1 }
  else { c with sharesRejected := c.sharesRejected + 1 }

/-- The shares counted. -/
def Counters.shares (c : Counters) : ℕ := c.sharesAccepted + c.sharesRejected

theorem Counters.shares_recordShareResult (c : Counters) (accepted : Bool) :
    (c.recordShareResult accepted).shares = c.shares + 1 := by
  cases accepted <;> simp [recordShareResult, shares] <;> omega

end CppMiner.Miner
