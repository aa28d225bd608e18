-- SUMMARY: What a pool can make the miner write to its log: any lines at all, with one rejected share.
import CppMiner.Logger.LogFile
import CppMiner.Network.Handlers
import CppMiner.Utils.OneLine

/-!
# The log of shares

`main` logs the result of every share, a rejected one with the reason the pool gave. The
reason is a JSON string, in which a line break is escaped, and it is logged as the bytes it
denotes. So one line from the pool, whatever state the client is in, can end the line that
the logger writes and go on with lines that read as any calls of the logger the pool likes
(`rejection_forges`).
-/

namespace CppMiner.Program

open Json (Value)
open Logger (Entry Level closing readLog)
open Network (ClientState SubmitResult Event handleLine)

/-- What the callback for share results logs. -/
def submitMessage (result : SubmitResult) : Level × Bytes :=
  if result.accepted then (.info, bytes "Share accepted.")
  else
    (.warn, bytes "Share rejected" ++
      if result.message = [] then bytes "." else bytes ": " ++ result.message)

/-- The call of the logger that the callback makes. -/
def submitEntry (time : Bytes) (result : SubmitResult) : Entry where
  time := time
  level := (submitMessage result).1
  message := (submitMessage result).2

/-- A response that rejects a share, with a code and a reason. -/
def rejection (reason : Bytes) : Value :=
  ((Value.makeObject.set (bytes "id") (.makeNumber 3)).set (bytes "result") (.makeBool false)).set
    (bytes "error") ((Value.makeArray.push (.makeNumber 21)).push (.makeString reason))

theorem get_rejection (reason : Bytes) :
    (rejection reason).get (bytes "method") = none ∧
      (rejection reason).get (bytes "id") = some (.number 3) ∧
      (rejection reason).get (bytes "result") = some (.bool false) ∧
      (rejection reason).get (bytes "error") = some (.array [.number 21, .string reason]) :=
  ⟨rfl, rfl, rfl, rfl⟩

theorem handleLine_rejection (c : ClientState) (reason : Bytes) :
    handleLine c (rejection reason).dump =
      (c, [.onSubmit { accepted := false, message := reason }]) := by
  have hbuilt : (rejection reason).Built :=
    .set _ (.set _ (.set _ .makeObject (.makeNumber 3 (by norm_num))) (.makeBool false))
      (.push (.push .makeArray (.makeNumber 21 (by norm_num))) (.makeString reason))
  have hparse := Json.parse_dump_of_wellFormed hbuilt.wellFormed
  have hne : (rejection reason).dump ≠ [] := by
    intro hnil
    rw [hnil, Network.parse_nil] at hparse
    cases hparse
  obtain ⟨hmethod, hid, hresult, herror⟩ := get_rejection reason
  have hthree : Double.toInt32 3 = 3 := by decide
  rw [handleLine, if_neg hne, hparse]
  simp [hmethod, Network.handleResponse, hid, hthree, Network.resultTrue, hresult,
    Network.errorMessage, herror, Value.asString]

/-- A reason that ends the line and goes on with others. -/
def forgedReason (reason : Bytes) (entries : List Entry) : Bytes :=
  reason ++ (entries.map fun e => newline :: e.line).flatten

theorem submitEntry_rejected (time : Bytes) {reason : Bytes} (h : reason ≠ []) :
    submitEntry time { message := reason } =
      ⟨time, .warn, bytes "Share rejected" ++ (bytes ": " ++ reason)⟩ := by
  simp [submitEntry, submitMessage, h]

/-- What is logged for a forged reason. -/
theorem line_submitEntry (time : Bytes) {reason : Bytes} (hreason : reason ≠ [])
    (entries : List Entry) :
    (submitEntry time { message := forgedReason reason entries }).line ++ [newline] =
      Lines.join newline
        ((submitEntry time { message := reason } :: entries).map Entry.line) := by
  have hforged : forgedReason reason entries ≠ [] := by simp [forgedReason, hreason]
  have hlines : (entries.map Entry.line).map (newline :: ·) =
      entries.map fun e => newline :: e.line := List.map_map
  rw [submitEntry_rejected time hreason, submitEntry_rejected time hforged, List.map_cons,
    Lines.join_cons_eq, hlines, forgedReason]
  simp only [Entry.line, List.append_assoc]

/-- For every reason that a rejection can show and every list of entries there is one line
from the pool that, in any state of the client, makes `main` write to the log what reads as
the rejection for this reason and then these entries, which nobody logged. -/
theorem rejection_forges (reason : Bytes) (hreason : reason ≠ [] ∧ newline ∉ reason)
    (entries : List Entry) (hentries : ∀ e ∈ entries, e.Dated ∧ newline ∉ e.message) :
    ∃ line result, newline ∉ line ∧ (∀ c, handleLine c line = (c, [.onSubmit result])) ∧
      ∀ time, closing ∉ time → newline ∉ time →
        readLog ((submitEntry time result).line ++ [newline]) =
          some (submitEntry time { accepted := false, message := reason } :: entries) := by
  -- the dump escapes the line breaks of the reason, so that they arrive in one line
  refine ⟨(rejection (forgedReason reason entries)).dump, _, Json.newline_notMem_dump _,
    fun c => handleLine_rejection c _, fun time hclosing hnewline => ?_⟩
  rw [line_submitEntry time hreason.1]
  have hdated : ∀ e ∈ submitEntry time { message := reason } :: entries, e.Dated := by
    intro e he
    rcases List.mem_cons.mp he with rfl | he
    · exact ⟨hclosing, hnewline⟩
    · exact (hentries e he).1
  have hempty : readLog [] = some [] := rfl
  refine (Logger.readLog_append_iff hempty hdated).mpr fun e he => ?_
  rcases List.mem_cons.mp he with rfl | he
  · rw [submitEntry_rejected time hreason.1]
    simp only [List.mem_append, hreason.2, or_false]
    decide
  · exact (hentries e he).2

/-- A rejected share that the log shows as accepted by the next line. -/
theorem rejection_forges_accepted :
    let forged : Entry := ⟨bytes "2024-05-01 12:00:00", .info, bytes "Share accepted."⟩
    ∃ line result, newline ∉ line ∧ (∀ c, handleLine c line = (c, [.onSubmit result])) ∧
      ∀ time, closing ∉ time → newline ∉ time →
        readLog ((submitEntry time result).line ++ [newline]) =
          some [submitEntry time { accepted := false, message := bytes "stale" }, forged] := by
  intro forged
  refine rejection_forges (bytes "stale") (by decide) [forged] fun e he => ?_
  obtain rfl := List.mem_singleton.mp he
  exact ⟨by decide, by decide⟩

end CppMiner.Program
