-- SUMMARY: What handling a line can change and call, by the kind of line.
import CppMiner.Network.Handlers

/-!
# Effects

A line with a string `method` is a notification, every other line a response. A
notification leaves the session alone, a response the current job, and a line of no
known kind changes and calls nothing (`handleLine_frame`).
-/

namespace CppMiner.Network

open Json (Value)

/-- The method of a line, if it has one that is a string. -/
def lineMethod (line : Bytes) : Option Bytes :=
  match Json.parse line with
  | none => none
  | some msg =>
    match msg.get (bytes "method") with
    | some (.string method) => some method
    | _ => none

/-- The params of a line; an empty array where there are none. -/
def lineParams (line : Bytes) : Value :=
  match Json.parse line with
  | none => Value.makeArray
  | some msg => (msg.get (bytes "params")).getD Value.makeArray

variable {line : Bytes}

theorem lineMethod_nil : lineMethod [] = none := by
  rw [lineMethod, parse_nil]

theorem lineMethod_of_parse (h : Json.parse line = none) : lineMethod line = none := by
  rw [lineMethod, h]

theorem responseId_of_parse (h : Json.parse line = none) : responseId line = none := by
  rw [responseId, h]

/-- The dispatch of `handleLine`, over what each kind of line comes to. -/
def dispatch {β : Type} (ignored : β) (notify setDifficulty response : Value → β)
    (line : Bytes) : β :=
  if line = [] then ignored
  else
    match Json.parse line with
    | none => ignored
    | some msg =>
      match msg.get (bytes "method") with
      | some (.string method) =>
        let params := (msg.get (bytes "params")).getD Value.makeArray
        if method = bytes "mining.notify" then notify params
        else if method = bytes "mining.set_difficulty" then setDifficulty params
        else ignored
      | _ => response msg

theorem handleLine_eq_dispatch (c : ClientState) (line : Bytes) :
    handleLine c line =
      dispatch (c, []) (handleNotify c) (fun params => (c, handleSetDifficulty params))
        (handleResponse c) line :=
  rfl

section Dispatch

variable {β : Type} {ignored : β} {notify setDifficulty response : Value → β}

/-- A line with a method is handled by it. -/
theorem dispatch_of_method {method : Bytes} (h : lineMethod line = some method) :
    dispatch ignored notify setDifficulty response line =
      if method = bytes "mining.notify" then notify (lineParams line)
      else if method = bytes "mining.set_difficulty" then setDifficulty (lineParams line)
      else ignored := by
  have hne : line ≠ [] := by
    rintro rfl
    rw [lineMethod_nil] at h
    cases h
  cases hparse : Json.parse line with
  | none =>
    rw [lineMethod_of_parse hparse] at h
    cases h
  | some msg =>
    simp only [lineMethod, hparse] at h
    split at h
    · rename_i m hget
      cases h
      simp only [dispatch, if_neg hne, hparse, hget, lineParams]
    · cases h

/-- A line with a numeric response id is handled as a response. -/
theorem dispatch_of_some {n : ℚ} {msg : Value} (hparse : Json.parse line = some msg)
    (h : responseId line = some n) :
    dispatch ignored notify setDifficulty response line = response msg := by
  have hne : line ≠ [] := by
    rintro rfl
    rw [parse_nil] at hparse
    cases hparse
  unfold responseId at h
  simp only [hparse] at h
  split at h
  · cases h
  split at h
  · simp only [dispatch, if_neg hne, hparse]
  · cases h

/-- Any other line is ignored, or a response whose id is no number. -/
theorem dispatch_of_no_id (hmethod : lineMethod line = none) (hid : responseId line = none)
    (hresponse : ∀ msg, (∀ n, msg.get (bytes "id") ≠ some (.number n)) → response msg = ignored) :
    dispatch ignored notify setDifficulty response line = ignored := by
  unfold lineMethod at hmethod
  unfold responseId at hid
  unfold dispatch
  split
  · rfl
  split
  · rfl
  rename_i msg hmsg
  simp only [hmsg] at hmethod hid ⊢
  split
  · rename_i m hget
    simp only [hget] at hmethod
    cases hmethod
  · rename_i hget
    split at hid
    · rename_i m hsome
      exact absurd hsome (hget m)
    split at hid
    · cases hid
    · rename_i hnone
      exact hresponse msg hnone

end Dispatch

theorem handleLine_of_method {method : Bytes} (h : lineMethod line = some method)
    (c : ClientState) :
    handleLine c line =
      if method = bytes "mining.notify" then handleNotify c (lineParams line)
      else if method = bytes "mining.set_difficulty" then
        (c, handleSetDifficulty (lineParams line))
      else (c, []) := by
  rw [handleLine_eq_dispatch, dispatch_of_method h]

theorem handleResponse_of_no_id (c : ClientState) {msg : Value}
    (h : ∀ n, msg.get (bytes "id") ≠ some (.number n)) : handleResponse c msg = (c, []) := by
  unfold handleResponse
  split
  · rename_i n hid
    exact absurd hid (h n)
  · rfl

/-- A line without a method, and without a numeric id, has no effect. -/
theorem handleLine_of_no_id (hmethod : lineMethod line = none) (hid : responseId line = none)
    (c : ClientState) : handleLine c line = (c, []) := by
  rw [handleLine_eq_dispatch]
  exact dispatch_of_no_id hmethod hid fun msg => handleResponse_of_no_id c

/-- A line with a method has no response id. -/
theorem responseId_of_method {method : Bytes} (h : lineMethod line = some method) :
    responseId line = none := by
  unfold lineMethod at h
  unfold responseId
  cases hmsg : Json.parse line with
  | none => rfl
  | some msg =>
    rw [hmsg] at h
    dsimp only at h ⊢
    cases hget : msg.get (bytes "method") with
    | none =>
      rw [hget] at h
      cases h
    | some v =>
      rw [hget] at h
      cases v with
      | string m => rfl
      | _ => cases h

/-- A response keeps the current job, and the only callback it invokes is `onSubmit_`. -/
theorem handleLine_response (h : lineMethod line = none) (c : ClientState) :
    (handleLine c line).1.currentJobId = c.currentJobId ∧
      ∀ e ∈ (handleLine c line).2, e.isSubmit = true := by
  cases hid : responseId line with
  | none =>
    rw [handleLine_of_no_id h hid]
    exact ⟨rfl, by simp⟩
  | some n =>
    by_cases h2 : Double.toInt32 n = 2
    · obtain ⟨b, hline⟩ := handleLine_authorize hid h2 c
      rw [hline]
      exact ⟨rfl, by simp⟩
    by_cases h1 : Double.toInt32 n = 1
    · obtain ⟨msg, -, hget, hline⟩ := handleLine_of_some hid
      refine ⟨?_, by rw [(handleLine_subscribe hid h1 c).2]; simp⟩
      simp only [hline, handleResponse, hget, h1, if_true, if_neg (show (1 : ℤ) ≠ 2 by decide)]
      split <;> rfl
    · obtain ⟨result, hline⟩ := handleLine_share hid h2 h1 c
      rw [hline]
      exact ⟨rfl, by simp [Event.isSubmit]⟩

/-- The lines that are passed over: empty ones, those that do not parse, those with an
unknown method, and responses without a numeric id. -/
def PassedOver (line : Bytes) : Prop :=
  line = [] ∨ Json.parse line = none ∨
    (∃ method, lineMethod line = some method ∧ method ≠ bytes "mining.notify" ∧
      method ≠ bytes "mining.set_difficulty") ∨
    (lineMethod line = none ∧ responseId line = none)

theorem PassedOver.handleLine_eq (h : PassedOver line) (c : ClientState) :
    handleLine c line = (c, []) := by
  rcases h with rfl | hparse | ⟨method, hmethod, hnotify, hdifficulty⟩ | ⟨hmethod, hid⟩
  · rfl
  · exact handleLine_of_no_id (lineMethod_of_parse hparse) (responseId_of_parse hparse) c
  · rw [handleLine_of_method hmethod, if_neg hnotify, if_neg hdifficulty]
  · exact handleLine_of_no_id hmethod hid c

/-- Handling a line has a bounded effect: at most one callback, none for a line that is
passed over; a notification keeps the session and a response the current job. -/
theorem handleLine_frame (c : ClientState) (line : Bytes) :
    (handleLine c line).2.length ≤ 1 ∧
      (PassedOver line → handleLine c line = (c, [])) ∧
      ((lineMethod line).isSome →
        (handleLine c line).1.authorized = c.authorized ∧
          (handleLine c line).1.extranonce1 = c.extranonce1 ∧
          (handleLine c line).1.extranonce2Size = c.extranonce2Size ∧
          ∀ e ∈ (handleLine c line).2, e.isSubmit = false) ∧
      (lineMethod line = none →
        (handleLine c line).1.currentJobId = c.currentJobId ∧
          ∀ e ∈ (handleLine c line).2, e.isSubmit = true) := by
  refine ⟨length_handleLine_le c line, fun h => h.handleLine_eq c, fun h => ?_,
    fun h => handleLine_response h c⟩
  obtain ⟨method, hmethod⟩ := Option.isSome_iff_exists.mp h
  obtain ⟨hstate, hevents⟩ := handleLine_of_none (responseId_of_method hmethod) c
  refine ⟨?_, ?_, ?_, hevents⟩
  all_goals rw [hstate]

end CppMiner.Network
