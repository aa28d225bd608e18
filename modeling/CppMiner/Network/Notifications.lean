-- SUMMARY: Malformed notifications: which are ignored, and which replace the job or the difficulty by defaults.
import CppMiner.Network.Effects
import CppMiner.Utils.RoundTrip

/-!
# Notifications

`handleNotify` looks at the type of its params and at their number, `handleSetDifficulty`
at the same; the types of the elements that a job or a difficulty is made of are not
checked, and an element of another type counts as an empty string or as zero. So a
malformed notification is ignored only for the shape of its params
(`malformed_ignored_iff`).
-/

namespace CppMiner.Network

open Json (Value)

/-- The lines that bring a job or a difficulty, with their params. -/
inductive Notification where
  | notify (params : Value)
  | setDifficulty (params : Value)

/-- The notification that a line is. -/
def notification (line : Bytes) : Option Notification :=
  match lineMethod line with
  | none => none
  | some method =>
    if method = bytes "mining.notify" then some (.notify (lineParams line))
    else if method = bytes "mining.set_difficulty" then some (.setDifficulty (lineParams line))
    else none

/-- Whether the array has a string at the index. -/
def stringAt (xs : List Value) (i : ℕ) : Bool :=
  match xs[i]? with
  | some (.string _) => true
  | _ => false

namespace Notification

/-- The fields of a notification that have to be there are there, with their types. -/
def WellFormed : Notification → Prop
  | .notify (.array xs) =>
    (xs.length = 7 ∧ ∀ i ∈ [0, 1, 2, 3], stringAt xs i = true) ∨
      (9 ≤ xs.length ∧ ∀ i ∈ [0, 1, 2, 3, 5, 6, 7], stringAt xs i = true)
  | .setDifficulty (.array (.number d :: _)) => 0 < d
  | _ => False

/-- The notifications whose params are no array, or an array of a length that is passed
over. -/
def PassedOver : Notification → Prop
  | .notify (.array xs) => xs.length ≠ 7 ∧ xs.length < 9
  | .setDifficulty (.array xs) => xs = []
  | _ => True

end Notification

variable {line : Bytes}

theorem lineMethod_of_notify {params : Value} (h : notification line = some (.notify params)) :
    lineMethod line = some (bytes "mining.notify") ∧ lineParams line = params := by
  unfold notification at h
  split at h
  · cases h
  rename_i method hmethod
  split at h
  · rename_i heq
    cases h
    exact ⟨by rw [hmethod, heq], rfl⟩
  split at h <;> cases h

theorem lineMethod_of_setDifficulty {params : Value}
    (h : notification line = some (.setDifficulty params)) :
    lineMethod line = some (bytes "mining.set_difficulty") ∧ lineParams line = params := by
  unfold notification at h
  split at h
  · cases h
  rename_i method hmethod
  split at h
  · cases h
  split at h
  · rename_i heq
    cases h
    exact ⟨by rw [hmethod, heq], rfl⟩
  · cases h

/-- A `mining.notify` calls nothing exactly if its params are passed over. -/
theorem handleNotify_eq_nil_iff (c : ClientState) (params : Value) :
    (handleNotify c params).2 = [] ↔ (Notification.notify params).PassedOver := by
  cases params with
  | array xs =>
    -- The source tells apart the lengths up to 8 and those from 9 on.
    rcases xs with
      _ | ⟨_, _ | ⟨_, _ | ⟨_, _ | ⟨_, _ | ⟨_, _ | ⟨_, _ | ⟨_, _ | ⟨_, _ | ⟨_, _⟩⟩⟩⟩⟩⟩⟩⟩⟩ <;>
      simp [handleNotify, Notification.PassedOver]
  | _ => exact iff_of_true rfl trivial

theorem handleNotify_of_nil {c : ClientState} {params : Value}
    (h : (handleNotify c params).2 = []) : (handleNotify c params).1 = c := by
  unfold handleNotify at h ⊢
  split at h
  · cases h
  · cases h
  · rfl

theorem handleSetDifficulty_eq_nil_iff (params : Value) :
    handleSetDifficulty params = [] ↔ (Notification.setDifficulty params).PassedOver := by
  cases params with
  | array xs => cases xs <;> simp [handleSetDifficulty, Notification.PassedOver]
  | _ => exact iff_of_true rfl trivial

/-- A notification is ignored exactly if its params are passed over. -/
theorem handleLine_ignored_iff (c : ClientState) {n : Notification}
    (h : notification line = some n) :
    ((handleLine c line).2 = [] ∧ (handleLine c line).1.currentJobId = c.currentJobId) ↔
      n.PassedOver := by
  cases n with
  | notify params =>
    obtain ⟨hmethod, hparams⟩ := lineMethod_of_notify h
    rw [handleLine_of_method hmethod, if_pos rfl, hparams, ← handleNotify_eq_nil_iff c params]
    exact ⟨And.left, fun hnil => ⟨hnil, by rw [handleNotify_of_nil hnil]⟩⟩
  | setDifficulty params =>
    obtain ⟨hmethod, hparams⟩ := lineMethod_of_setDifficulty h
    rw [handleLine_of_method hmethod, if_neg (by decide), if_pos rfl, hparams,
      ← handleSetDifficulty_eq_nil_iff params]
    exact ⟨And.left, fun hnil => ⟨hnil, rfl⟩⟩

/-- That a notification is ignored if it is malformed holds exactly of those that are
well-formed or passed over for the shape of their params. -/
theorem malformed_ignored_iff (c : ClientState) {n : Notification}
    (h : notification line = some n) :
    (¬ n.WellFormed →
        (handleLine c line).2 = [] ∧ (handleLine c line).1.currentJobId = c.currentJobId) ↔
      n.WellFormed ∨ n.PassedOver := by
  rw [handleLine_ignored_iff c h, or_iff_not_imp_left]

/-! ## Lines with given params -/

/-- A line with a method and params. -/
def messageLine (method : Bytes) (params : Value) : Bytes :=
  (Value.object [(bytes "method", .string method), (bytes "params", params)]).dump

/-- Whatever the params, there is a line that carries them. -/
theorem lineMethod_messageLine (method : Bytes) {params : Value} (h : params.WellFormed) :
    lineMethod (messageLine method params) = some method ∧
      lineParams (messageLine method params) = params := by
  have hkeys : bytes "method" ≠ bytes "params" := by decide
  have hmessage : (Value.object
      [(bytes "method", .string method), (bytes "params", params)]).WellFormed := by
    refine ⟨⟨?_, trivial⟩, ⟨trivial, trivial⟩, h, trivial⟩
    simp [Value.DistinctKeys, hkeys]
  have hparse := Json.parse_dump_of_wellFormed hmessage
  constructor
  · simp [lineMethod, messageLine, hparse, Value.get]
  · simp [lineParams, messageLine, hparse, Value.get, hkeys]

/-- A difficulty in quotes. -/
def textDifficulty : Value := .array [.string (bytes "8")]

example : messageLine (bytes "mining.set_difficulty") textDifficulty =
    bytes "\x7b\"method\":\"mining.set_difficulty\",\"params\":[\"8\"]\x7d" := by decide

/-- A job of seven nulls. -/
def nullJob : Value := .array (List.replicate 7 .null)

theorem wellFormed_textDifficulty : textDifficulty.WellFormed := by
  simp [textDifficulty, Value.WellFormed, Value.Every, Value.EveryElem, Value.Readable,
    Value.DistinctKeys, Value.ExactNumber]

theorem wellFormed_nullJob : nullJob.WellFormed := by
  simp [nullJob, List.replicate, Value.WellFormed, Value.Every, Value.EveryElem, Value.Readable,
    Value.DistinctKeys, Value.ExactNumber]

theorem malformed_ignored_iff_nullJob :
    notification (messageLine (bytes "mining.notify") nullJob) = some (.notify nullJob) ∧
      ((¬ (Notification.notify nullJob).WellFormed →
          (handleLine {} (messageLine (bytes "mining.notify") nullJob)).2 = [] ∧
            (handleLine {} (messageLine (bytes "mining.notify") nullJob)).1.currentJobId =
              ({} : ClientState).currentJobId) ↔
        (Notification.notify nullJob).WellFormed ∨ (Notification.notify nullJob).PassedOver) := by
  obtain ⟨hmethod, hparams⟩ :=
    lineMethod_messageLine (bytes "mining.notify") wellFormed_nullJob
  have hline : notification (messageLine (bytes "mining.notify") nullJob) =
      some (.notify nullJob) := by
    rw [notification, hmethod, hparams]
    simp
  exact ⟨hline, malformed_ignored_iff {} hline⟩

/-- A job of nulls replaces the current job, and a difficulty in quotes sets difficulty 0. -/
theorem malformed_not_ignored :
    (¬ (Notification.notify nullJob).WellFormed ∧
        ∃ job : Miner.MiningJob,
          handleLine { currentJobId := bytes "7" } (messageLine (bytes "mining.notify") nullJob) =
            ({ currentJobId := [] }, [.onJob job]) ∧ job.jobId = [] ∧ job.blob = []) ∧
      ¬ (Notification.setDifficulty textDifficulty).WellFormed ∧
        handleLine {} (messageLine (bytes "mining.set_difficulty") textDifficulty) =
          ({}, [.onDifficulty 0]) := by
  obtain ⟨hnotify, hjob⟩ := lineMethod_messageLine (bytes "mining.notify") wellFormed_nullJob
  obtain ⟨hset, hdifficulty⟩ :=
    lineMethod_messageLine (bytes "mining.set_difficulty") wellFormed_textDifficulty
  refine ⟨⟨?_, ?_⟩, ?_, ?_⟩
  · simp [Notification.WellFormed, nullJob, stringAt]
  · rw [handleLine_of_method hnotify, if_pos rfl, hjob]
    exact ⟨_, rfl, rfl, rfl⟩
  · simp [Notification.WellFormed, textDifficulty]
  · rw [handleLine_of_method hset, if_neg (by decide), if_pos rfl, hdifficulty]
    rfl

end CppMiner.Network
