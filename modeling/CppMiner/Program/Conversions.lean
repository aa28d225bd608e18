-- SUMMARY: The conversions of JSON numbers to integers while a line is handled: on which lines all are in range.
import CppMiner.Miner.Worker
import CppMiner.Network.Notifications

/-!
# Conversions

Handling a line converts numbers of the message to integer types: the id of a response,
the size of the extranonce2, every integral number that a logged dump writes, and the
width a worker gives `toHex`. A conversion out of range is undefined. The functions here
are those of the model with every such conversion checked; where they give a result it is
that of the model (`handleLineChecked_eq`), and `handleLineChecked_isSome_iff` says on
which lines they do.
-/

namespace CppMiner.Json.Value

mutual

/-- `dump` with the conversion of integral numbers to `long long` checked. -/
def dumpChecked : Value → Option Bytes
  | .null => some (bytes "null")
  | .bool b => some (if b then bytes "true" else bytes "false")
  | .number n =>
    if n = ⌊n⌋ then (Double.castInt64 n).map Numerals.toString
    else some (Numerals.streamDouble n)
  | .string s => some (quote s)
  | .array xs => do
    let out ← dumpElemsChecked 0 xs
    return '['.toUInt8 :: out ++ [']'.toUInt8]
  | .object kvs => do
    let out ← dumpMembersChecked 0 kvs
    return '{'.toUInt8 :: out ++ ['}'.toUInt8]

def dumpElemsChecked (i : ℕ) : List Value → Option Bytes
  | [] => some []
  | v :: vs => do
    let first ← v.dumpChecked
    let rest ← dumpElemsChecked (i + 1) vs
    return (if i = 0 then [] else bytes ",") ++ first ++ rest

def dumpMembersChecked (i : ℕ) : List (Bytes × Value) → Option Bytes
  | [] => some []
  | (k, v) :: kvs => do
    let first ← v.dumpChecked
    let rest ← dumpMembersChecked (i + 1) kvs
    return (if i = 0 then [] else bytes ",") ++ quote k ++ ':'.toUInt8 :: first ++ rest

end

/-- A number that is integral is a `long long`. -/
def FitsLongLong : Value → Prop
  | .number n => n = ⌊n⌋ → -2 ^ 63 ≤ n ∧ n < 2 ^ 63
  | _ => True

theorem castInt64_isSome_iff {n : ℚ} (h : n = ⌊n⌋) :
    (Double.castInt64 n).isSome ↔ -2 ^ 63 ≤ n ∧ n < 2 ^ 63 := by
  have htrunc : Double.trunc n = ⌊n⌋ := by
    rw [h, Double.trunc_intCast, Int.floor_intCast]
  have hlo : -2 ^ 63 ≤ ⌊n⌋ ↔ -2 ^ 63 ≤ n := by
    rw [Int.le_floor]
    norm_num
  have hhi : ⌊n⌋ < 2 ^ 63 ↔ n < 2 ^ 63 := by
    rw [Int.floor_lt]
    norm_num
  rw [Double.castInt64, Double.castTo, htrunc, Option.isSome_ite, hlo, hhi]

mutual

/-- The checked dump is the dump, unless an integral number does not fit. -/
theorem dumpChecked_eq : ∀ v : Value,
    v.Every FitsLongLong ∧ v.dumpChecked = some v.dump ∨
      ¬ v.Every FitsLongLong ∧ v.dumpChecked = none
  | .null => .inl ⟨trivial, rfl⟩
  | .bool b => .inl ⟨trivial, rfl⟩
  | .number n => by
    by_cases hint : n = ⌊n⌋
    · simp only [Every, FitsLongLong, dumpChecked, dump, if_pos hint]
      rw [← castInt64_isSome_iff hint]
      cases hcast : Double.castInt64 n with
      | none => exact .inr ⟨fun h => by simpa using h hint, rfl⟩
      | some m => exact .inl ⟨fun _ => rfl, by rw [Double.toInt64_of_castInt64 hcast]; rfl⟩
    · simp only [Every, FitsLongLong, dumpChecked, dump, if_neg hint]
      exact .inl ⟨fun h => absurd h hint, trivial⟩
  | .string s => .inl ⟨trivial, rfl⟩
  | .array xs => by
    rcases dumpElemsChecked_eq xs 0 with ⟨hfits, heq⟩ | ⟨hfits, heq⟩
    · exact .inl ⟨⟨trivial, hfits⟩, by simp [dumpChecked, heq, dump]⟩
    · exact .inr ⟨fun h => hfits h.2, by simp [dumpChecked, heq]⟩
  | .object kvs => by
    rcases dumpMembersChecked_eq kvs 0 with ⟨hfits, heq⟩ | ⟨hfits, heq⟩
    · exact .inl ⟨⟨trivial, hfits⟩, by simp [dumpChecked, heq, dump]⟩
    · exact .inr ⟨fun h => hfits h.2, by simp [dumpChecked, heq]⟩

theorem dumpElemsChecked_eq : ∀ (vs : List Value) (i : ℕ),
    EveryElem FitsLongLong vs ∧ dumpElemsChecked i vs = some (dumpElems i vs) ∨
      ¬ EveryElem FitsLongLong vs ∧ dumpElemsChecked i vs = none
  | [], _ => .inl ⟨trivial, rfl⟩
  | v :: vs, i => by
    rcases dumpChecked_eq v with ⟨hv, heq⟩ | ⟨hv, heq⟩
    · rcases dumpElemsChecked_eq vs (i + 1) with ⟨hvs, heqs⟩ | ⟨hvs, heqs⟩
      · exact .inl ⟨⟨hv, hvs⟩, by simp [dumpElemsChecked, heq, heqs, dumpElems]⟩
      · exact .inr ⟨fun h => hvs h.2, by simp [dumpElemsChecked, heqs]⟩
    · exact .inr ⟨fun h => hv h.1, by simp [dumpElemsChecked, heq]⟩

theorem dumpMembersChecked_eq : ∀ (kvs : List (Bytes × Value)) (i : ℕ),
    EveryMember FitsLongLong kvs ∧ dumpMembersChecked i kvs = some (dumpMembers i kvs) ∨
      ¬ EveryMember FitsLongLong kvs ∧ dumpMembersChecked i kvs = none
  | [], _ => .inl ⟨trivial, rfl⟩
  | (k, v) :: kvs, i => by
    rcases dumpChecked_eq v with ⟨hv, heq⟩ | ⟨hv, heq⟩
    · rcases dumpMembersChecked_eq kvs (i + 1) with ⟨hvs, heqs⟩ | ⟨hvs, heqs⟩
      · exact .inl ⟨⟨hv, hvs⟩, by simp [dumpMembersChecked, heq, heqs, dumpMembers]⟩
      · exact .inr ⟨fun h => hvs h.2, by simp [dumpMembersChecked, heqs]⟩
    · exact .inr ⟨fun h => hv h.1, by simp [dumpMembersChecked, heq]⟩

end

end CppMiner.Json.Value

namespace CppMiner.Program

open Json (Value)
open Miner (MiningJob)
open Network

/-! ## Handling a line -/

/-- The width of the extranonce2 of a job, as an `int`. -/
def widthChecked (job : MiningJob) : Option ℤ :=
  let width := job.extranonce2Size.toNat * 2
  if width < 2 ^ 31 then some width else none

/-- What is done with an event: a job goes to the workers, which take its width. -/
def eventChecked : Event → Option Unit
  | .onJob job => (widthChecked job).map fun _ => ()
  | _ => some ()

/-- The params are dumped whatever they are; then the jobs go out. -/
def handleNotifyChecked (c : ClientState) (params : Value) : Option (ClientState × List Event) := do
  let _data ← params.dumpChecked
  let result := handleNotify c params
  result.2.forM eventChecked
  return result

def handleResponseChecked (c : ClientState) (msg : Value) : Option (ClientState × List Event) :=
  match msg.get (bytes "id") with
  | some (.number n) => do
    let id ← Double.castInt32 n
    let accepted := resultTrue msg && !hasError msg
    let _raw ← msg.dumpChecked
    if id = 2 then return ({ c with authorized := accepted }, [])
    else if id = 1 then
      match msg.get (bytes "result") with
      | some (.array (_ :: extranonce1 :: extranonce2Size :: _)) =>
        let extranonce2Size ← Double.castUInt32 extranonce2Size.asNumber
        return ({ c with
          extranonce1 := extranonce1.asString, extranonce2Size := extranonce2Size }, [])
      | _ => return (c, [])
    else
      let message := if accepted then [] else errorMessage msg
      return (c, [.onSubmit { accepted := accepted, message := message }])
  | _ => some (c, [])

/-- `handleLine` with every conversion of a number of the line checked. -/
def handleLineChecked (c : ClientState) (line : Bytes) : Option (ClientState × List Event) :=
  dispatch (some (c, [])) (handleNotifyChecked c)
    (fun params => some (c, handleSetDifficulty params)) (handleResponseChecked c) line

variable {line : Bytes}

/-! ## Where the conversions are in range -/

theorem widthChecked_isSome_iff (job : MiningJob) :
    (widthChecked job).isSome ↔ job.extranonce2Size.toNat * 2 < 2 ^ 31 := by
  rw [widthChecked, Option.isSome_ite]

/-- A width in range is the one the worker pads to. -/
theorem extranonce2Width_of_isSome {job : MiningJob} (h : (widthChecked job).isSome) :
    Miner.extranonce2Width job = (job.extranonce2Size.toNat * 2 : ℕ) :=
  Miner.extranonce2Width_of_lt ((widthChecked_isSome_iff job).mp h)

/-- What is asked of a `mining.notify`: that the numbers of its params can be dumped, and
that a job it brings has a width. -/
def NotifyInRange (c : ClientState) (params : Value) : Prop :=
  params.Every Value.FitsLongLong ∧
    (¬ (Notification.notify params).PassedOver → c.extranonce2Size.toNat * 2 < 2 ^ 31)

/-- The number that the result of a response has for the size of the extranonce2. -/
def sizeNumber (msg : Value) : Option ℚ :=
  match msg.get (bytes "result") with
  | some (.array (_ :: _ :: extranonce2Size :: _)) => some extranonce2Size.asNumber
  | _ => none

/-- What is asked of a response with the id `n`: that the id and the numbers of the
message can be converted, and the size that an answer to `mining.subscribe` gives. -/
def ResponseInRange (msg : Value) (n : ℚ) : Prop :=
  (-2 ^ 31 - 1 < n ∧ n < 2 ^ 31) ∧ msg.Every Value.FitsLongLong ∧
    (1 ≤ n ∧ n < 2 → ∀ x ∈ sizeNumber msg, -1 < x ∧ x < 2 ^ 32)

/-- A notification that is not passed over brings a job with the client's size. -/
theorem handleNotify_jobs (c : ClientState) (params : Value) :
    (Notification.notify params).PassedOver ∧ (handleNotify c params).2 = [] ∨
      ¬ (Notification.notify params).PassedOver ∧
        ∃ job, (handleNotify c params).2 = [.onJob job] ∧
          job.extranonce2Size = c.extranonce2Size := by
  rw [← handleNotify_eq_nil_iff c params]
  unfold handleNotify
  split
  · exact .inr ⟨by simp, _, rfl, rfl⟩
  · exact .inr ⟨by simp, _, rfl, rfl⟩
  · exact .inl ⟨rfl, rfl⟩

/-- A notification is handled as in the model where the conversions are in range. -/
theorem handleNotifyChecked_eq (c : ClientState) (params : Value) :
    NotifyInRange c params ∧ handleNotifyChecked c params = some (handleNotify c params) ∨
      ¬ NotifyInRange c params ∧ handleNotifyChecked c params = none := by
  unfold handleNotifyChecked NotifyInRange
  rcases params.dumpChecked_eq with ⟨hfits, hdump⟩ | ⟨hfits, hdump⟩
  · rcases handleNotify_jobs c params with ⟨hover, hevents⟩ | ⟨hover, job, hevents, hsize⟩
    · exact .inl ⟨⟨hfits, fun h => absurd hover h⟩, by simp [hdump, hevents]⟩
    · have hwidth := widthChecked_isSome_iff job
      rw [hsize] at hwidth
      cases hjob : widthChecked job with
      | none =>
        rw [hjob] at hwidth
        exact .inr ⟨fun h => by simpa using hwidth.mpr (h.2 hover),
          by simp [hdump, hevents, eventChecked, hjob]⟩
      | some width =>
        rw [hjob] at hwidth
        exact .inl ⟨⟨hfits, fun _ => hwidth.mp rfl⟩,
          by simp [hdump, hevents, eventChecked, hjob]⟩
  · exact .inr ⟨fun h => hfits h.1, by simp [hdump]⟩

/-- The id that a number is cut to, where that is in range. -/
theorem castInt32_cases (n : ℚ) :
    (-2 ^ 31 - 1 < n ∧ n < 2 ^ 31) ∧ (∃ id, Double.castInt32 n = some id ∧
        Double.toInt32 n = id ∧ (id = 1 ↔ 1 ≤ n ∧ n < 2)) ∨
      ¬ (-2 ^ 31 - 1 < n ∧ n < 2 ^ 31) ∧ Double.castInt32 n = none := by
  rw [← Double.isSome_castInt32]
  cases hcast : Double.castInt32 n with
  | none => exact .inr ⟨by simp, rfl⟩
  | some id =>
    refine .inl ⟨rfl, id, rfl, Double.toInt32_of_castInt32 hcast, ?_⟩
    have htrunc := (Double.castTo_eq_some hcast).2.2
    have hone := Double.trunc_eq_iff (q := n) (n := 1) (by decide)
    norm_num at hone
    rw [← htrunc, hone]

/-- The cast of the size that the result of a response gives. -/
theorem castUInt32_cases (x : ℚ) :
    (-1 < x ∧ x < 2 ^ 32) ∧ Double.castUInt32 x = some (Double.toUInt32 x) ∨
      ¬ (-1 < x ∧ x < 2 ^ 32) ∧ Double.castUInt32 x = none := by
  rw [← Double.isSome_castUInt32]
  cases hcast : Double.castUInt32 x with
  | none => exact .inr ⟨by simp, rfl⟩
  | some size => exact .inl ⟨rfl, by rw [Double.toUInt32_of_castUInt32 hcast]⟩

/-- A response is handled as in the model where the conversions are in range. -/
theorem handleResponseChecked_eq (c : ClientState) {msg : Value} {n : ℚ}
    (h : msg.get (bytes "id") = some (.number n)) :
    ResponseInRange msg n ∧ handleResponseChecked c msg = some (handleResponse c msg) ∨
      ¬ ResponseInRange msg n ∧ handleResponseChecked c msg = none := by
  unfold handleResponseChecked handleResponse ResponseInRange
  simp only [h]
  -- the conversions come in the order of the source: the id, the dump, the size of extranonce2
  rcases castInt32_cases n with ⟨hn, id, hcast, hid, hone⟩ | ⟨hn, hcast⟩
  · rcases msg.dumpChecked_eq with ⟨hfits, hdump⟩ | ⟨hfits, hdump⟩
    · simp only [hcast, hdump, hid, Option.bind_eq_bind, Option.bind_some]
      by_cases h2 : id = 2
      · have hno : ¬ (1 ≤ n ∧ n < 2) := by
          rw [← hone, h2]
          decide
        exact .inl ⟨⟨hn, hfits, fun h => absurd h hno⟩, by simp only [if_pos h2]; rfl⟩
      by_cases h1 : id = 1
      · simp only [if_neg h2, if_pos h1, sizeNumber]
        cases hresult : msg.get (bytes "result") with
        | none => exact .inl ⟨⟨hn, hfits, by simp⟩, rfl⟩
        | some result =>
          cases result with
          | array xs =>
            rcases xs with _ | ⟨_, _ | ⟨_, _ | ⟨size, _⟩⟩⟩
            case cons.cons.cons =>
              rcases castUInt32_cases size.asNumber with ⟨hsize, hcast⟩ | ⟨hsize, hcast⟩
              · exact .inl ⟨⟨hn, hfits, by simpa using fun _ _ => hsize⟩, by simp [hcast]⟩
              · exact .inr ⟨fun hall => hsize (hall.2.2 (hone.mp h1) _ rfl), by simp [hcast]⟩
            all_goals exact .inl ⟨⟨hn, hfits, by simp⟩, rfl⟩
          | _ => exact .inl ⟨⟨hn, hfits, by simp⟩, rfl⟩
      · exact .inl ⟨⟨hn, hfits, fun h => absurd (hone.mpr h) h1⟩,
          by simp only [if_neg h2, if_neg h1]; rfl⟩
    · exact .inr ⟨fun hall => hfits hall.2.1, by simp [hcast, hdump]⟩
  · exact .inr ⟨fun hall => hn hall.1, by simp [hcast]⟩

/-! ## Lines -/

theorem handleResponseChecked_of_no_id (c : ClientState) {msg : Value}
    (h : ∀ n, msg.get (bytes "id") ≠ some (.number n)) :
    handleResponseChecked c msg = some (c, []) := by
  unfold handleResponseChecked
  split
  · rename_i n hid
    exact absurd hid (h n)
  · rfl

/-- What is asked of a line: what is asked of the notification, or of the response, that
it is. -/
def LineInRange (c : ClientState) (line : Bytes) : Prop :=
  (∀ params, notification line = some (.notify params) → NotifyInRange c params) ∧
    ∀ msg n, Json.parse line = some msg → responseId line = some n → ResponseInRange msg n

theorem handleLineChecked_eq (c : ClientState) (line : Bytes) :
    LineInRange c line ∧ handleLineChecked c line = some (handleLine c line) ∨
      ¬ LineInRange c line ∧ handleLineChecked c line = none := by
  unfold LineInRange handleLineChecked
  rw [handleLine_eq_dispatch]
  -- a line is a notification or a response, so that one half of the range is about nothing
  cases hmethod : lineMethod line with
  | some method =>
    have hid := responseId_of_method hmethod
    have hnotification : notification line =
        if method = bytes "mining.notify" then some (.notify (lineParams line))
        else if method = bytes "mining.set_difficulty" then
          some (.setDifficulty (lineParams line))
        else none := by
      simp only [notification, hmethod]
    rw [dispatch_of_method hmethod, dispatch_of_method hmethod, hnotification, hid]
    by_cases hnotify : method = bytes "mining.notify"
    · simp only [if_pos hnotify]
      rcases handleNotifyChecked_eq c (lineParams line) with ⟨hrange, heq⟩ | ⟨hrange, heq⟩
      · exact .inl ⟨⟨by rintro _ ⟨⟩; exact hrange, by simp⟩, heq⟩
      · exact .inr ⟨fun h => hrange (h.1 _ rfl), heq⟩
    · simp only [if_neg hnotify]
      refine .inl ⟨⟨fun params h => ?_, by simp⟩, by split <;> rfl⟩
      split at h <;> cases h
  | none =>
    have hnotification : notification line = none := by simp only [notification, hmethod]
    rw [hnotification]
    cases hid : responseId line with
    | some n =>
      obtain ⟨msg, hparse, hget, -⟩ := handleLine_of_some hid
      rw [dispatch_of_some hparse hid, dispatch_of_some hparse hid, hparse]
      rcases handleResponseChecked_eq c hget with ⟨hrange, heq⟩ | ⟨hrange, heq⟩
      · exact .inl ⟨⟨by simp, by rintro _ _ ⟨⟩ ⟨⟩; exact hrange⟩, heq⟩
      · exact .inr ⟨fun h => hrange (h.2 _ _ rfl rfl), heq⟩
    | none =>
      rw [dispatch_of_no_id hmethod hid fun msg => handleResponseChecked_of_no_id c,
        dispatch_of_no_id hmethod hid fun msg => handleResponse_of_no_id c]
      exact .inl ⟨⟨by simp, by simp⟩, rfl⟩

/-- Every conversion that handling a line takes is in range exactly if those of the
notification, or of the response, that the line is are; then the line is handled as in the
model. -/
theorem handleLineChecked_isSome_iff (c : ClientState) (line : Bytes) :
    ((handleLineChecked c line).isSome ↔ LineInRange c line) ∧
      ∀ r ∈ handleLineChecked c line, handleLine c line = r := by
  rcases handleLineChecked_eq c line with ⟨hrange, heq⟩ | ⟨hrange, heq⟩
  · simp [heq, hrange]
  · simp [heq, hrange]

/-- A response with the id `2 ^ 32`. -/
def bigId : Value := .object [(bytes "id", .number 4294967296)]

example : bigId.dump = bytes "\x7b\"id\":4294967296\x7d" := by decide +kernel

/-- An id that is no `int`. -/
theorem handleLineChecked_bigId : handleLineChecked {} bigId.dump = none := by
  have hwf : bigId.WellFormed := by
    refine ⟨⟨by simp [Value.DistinctKeys], trivial⟩, ⟨trivial, 4294967296, ?_, ?_⟩, trivial⟩ <;>
      norm_num
  have hparse := Json.parse_dump_of_wellFormed hwf
  have hget : bigId.get (bytes "id") = some (.number 4294967296) := by simp [bigId, Value.get]
  have hmethod : bigId.get (bytes "method") = none := by decide
  have hid : responseId bigId.dump = some 4294967296 := by
    simp only [responseId, hparse, hmethod, hget]
  have hcast : Double.castInt32 4294967296 = none := by
    rw [← Option.not_isSome_iff_eq_none, Double.isSome_castInt32]
    norm_num
  rw [handleLineChecked, dispatch_of_some hparse hid]
  simp [handleResponseChecked, hget, hcast]

end CppMiner.Program
