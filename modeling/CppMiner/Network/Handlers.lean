-- SUMMARY: Dispatch of the lines the pool sends: notifications, difficulty, and responses.
import CppMiner.Miner.Types
import CppMiner.Utils.MiniJson

/-!
# Handlers

`handleLine` parses a line and dispatches it. The fields of the client that a line
can change are `ClientState`; the callbacks it invokes are returned as events, in
order. What the handlers write to the log is left out.

A line without a string `method` is a response. `responseId` is the number such a
line is dispatched on, and the lemmas at the end say what each kind of line does, and
what handling any line does to `authorized_` and to the extranonce values.
-/

namespace CppMiner.Network

open Json (Value)
open Miner (MiningJob)

/-- Result of a submitted share. -/
structure SubmitResult where
  accepted : Bool := false
  message : Bytes := []

/-- The fields of `StratumClient` that handling a line reads or writes. -/
structure ClientState where
  authorized : Bool := false
  extranonce1 : Bytes := []
  extranonce2Size : UInt32 := 4
  currentJobId : Bytes := []
  deriving DecidableEq

/-- A callback invoked. -/
inductive Event where
  | onJob (job : MiningJob)
  | onDifficulty (difficulty : ℚ)
  | onSubmit (result : SubmitResult)

/-- The strings of a JSON array, none if the value is no array. -/
def strings : Value → List Bytes
  | .array xs => xs.map Value.asString
  | _ => []

/-- With seven elements the size checks inside that branch of the source all pass. -/
def handleNotify (c : ClientState) : Value → ClientState × List Event
  | .array [jobId, blob, seedHash, prevHash, difficulty, cleanJobs, _] =>
    let job : MiningJob :=
      { extranonce1 := c.extranonce1, extranonce2Size := c.extranonce2Size
        jobId := jobId.asString, blob := blob.asString, seedHash := seedHash.asString
        prevHash := prevHash.asString, difficulty := difficulty.asNumber
        cleanJobs := cleanJobs.asBool, bits := bytes "1d00ffff", time := bytes "00000000" }
    ({ c with currentJobId := job.jobId }, [.onJob job])
  | .array (jobId :: prevHash :: coinbase1 :: coinbase2 :: merkleBranches :: version :: bits ::
      time :: cleanJobs :: _) =>
    let job : MiningJob :=
      { extranonce1 := c.extranonce1, extranonce2Size := c.extranonce2Size
        jobId := jobId.asString, prevHash := prevHash.asString
        coinbase1 := coinbase1.asString, coinbase2 := coinbase2.asString
        merkleBranches := strings merkleBranches, version := version.asString
        bits := bits.asString, time := time.asString, cleanJobs := cleanJobs.asBool }
    ({ c with currentJobId := job.jobId }, [.onJob job])
  | _ => (c, [])

def handleSetDifficulty : Value → List Event
  | .array (diff :: _) => [.onDifficulty diff.asNumber]
  | _ => []

/-- Whether a response carries `result: true`. -/
def resultTrue (msg : Value) : Bool :=
  match msg.get (bytes "result") with
  | some (.bool b) => b
  | _ => false

/-- Whether a response carries an error other than null. -/
def hasError (msg : Value) : Bool :=
  match msg.get (bytes "error") with
  | none | some .null => false
  | some _ => true

/-- The reason of a rejection: the last element of the error array. -/
def errorMessage (msg : Value) : Bytes :=
  match msg.get (bytes "error") with
  | some (.array xs) => (xs.getLast?.map Value.asString).getD []
  | _ => []

/-- Ids 1 and 2 are the subscribe and authorize requests, any other id is taken for a
share submission. -/
def handleResponse (c : ClientState) (msg : Value) : ClientState × List Event :=
  match msg.get (bytes "id") with
  | some (.number n) =>
    let id := Double.toInt32 n
    let accepted := resultTrue msg && !hasError msg
    if id = 2 then ({ c with authorized := accepted }, [])
    else if id = 1 then
      match msg.get (bytes "result") with
      | some (.array (_ :: extranonce1 :: extranonce2Size :: _)) =>
        ({ c with
            extranonce1 := extranonce1.asString
            extranonce2Size := Double.toUInt32 extranonce2Size.asNumber }, [])
      | _ => (c, [])
    else
      let message := if accepted then [] else errorMessage msg
      (c, [.onSubmit { accepted := accepted, message := message }])
  | _ => (c, [])

def handleLine (c : ClientState) (line : Bytes) : ClientState × List Event :=
  if line = [] then (c, [])
  else
    match Json.parse line with
    | none => (c, [])
    | some msg =>
      match msg.get (bytes "method") with
      | some (.string method) =>
        let params := (msg.get (bytes "params")).getD Value.makeArray
        if method = bytes "mining.notify" then handleNotify c params
        else if method = bytes "mining.set_difficulty" then (c, handleSetDifficulty params)
        else (c, [])
      | _ => handleResponse c msg

/-! ## What a line does -/

/-- The numeric id of a response; none for a line that is not handled as a response
or has no numeric id. -/
def responseId (line : Bytes) : Option ℚ :=
  match Json.parse line with
  | none => none
  | some msg =>
    match msg.get (bytes "method") with
    | some (.string _) => none
    | _ =>
      match msg.get (bytes "id") with
      | some (.number n) => some n
      | _ => none

/-- Whether an event is a share result. -/
def Event.isSubmit : Event → Bool
  | .onSubmit _ => true
  | _ => false

/-- A notification keeps the session and reports no share. -/
theorem handleNotify_frame (c : ClientState) (params : Value) :
    (handleNotify c params).1 = { c with currentJobId := (handleNotify c params).1.currentJobId } ∧
      ∀ e ∈ (handleNotify c params).2, e.isSubmit = false := by
  unfold handleNotify
  split <;> simp [Event.isSubmit]

theorem handleSetDifficulty_frame (params : Value) :
    ∀ e ∈ handleSetDifficulty params, e.isSubmit = false := by
  unfold handleSetDifficulty
  split <;> simp [Event.isSubmit]

theorem parse_nil : Json.parse [] = none := rfl

/-- A line with no numeric response id keeps the session and reports no share. -/
theorem handleLine_of_none {line : Bytes} (h : responseId line = none) (c : ClientState) :
    (handleLine c line).1 = { c with currentJobId := (handleLine c line).1.currentJobId } ∧
      ∀ e ∈ (handleLine c line).2, e.isSubmit = false := by
  unfold handleLine
  unfold responseId at h
  split
  · simp
  split
  · simp
  · rename_i msg hmsg
    rw [hmsg] at h
    simp only at h ⊢
    split
    · split
      · exact handleNotify_frame _ _
      split
      · exact ⟨rfl, handleSetDifficulty_frame _⟩
      · simp
    · rename_i hmethod
      split at h
      · rename_i method heq
        exact absurd heq (hmethod method)
      · unfold handleResponse
        split at h
        · cases h
        · simp

/-- A line with a numeric response id is handled as a response. -/
theorem handleLine_of_some {line : Bytes} {n : ℚ} (h : responseId line = some n) :
    ∃ msg, Json.parse line = some msg ∧ msg.get (bytes "id") = some (.number n) ∧
      ∀ c, handleLine c line = handleResponse c msg := by
  unfold responseId at h
  split at h
  · cases h
  · rename_i msg hmsg
    split at h
    · cases h
    · rename_i hmethod
      split at h
      · rename_i m hid
        cases h
        refine ⟨msg, hmsg, hid, fun c => ?_⟩
        have hne : line ≠ [] := by
          rintro rfl
          rw [parse_nil] at hmsg
          cases hmsg
        unfold handleLine
        rw [if_neg hne, hmsg]
        simp only
      · cases h

/-- A response with id 2 sets `authorized_` and nothing else. -/
theorem handleLine_authorize {line : Bytes} {n : ℚ} (h : responseId line = some n)
    (hn : Double.toInt32 n = 2) (c : ClientState) :
    ∃ b, handleLine c line = ({ c with authorized := b }, []) := by
  obtain ⟨msg, -, hid, hline⟩ := handleLine_of_some h
  simp only [hline, handleResponse, hid, hn, if_true]
  exact ⟨_, rfl⟩

/-- A response with id 1 keeps `authorized_` and invokes nothing. -/
theorem handleLine_subscribe {line : Bytes} {n : ℚ} (h : responseId line = some n)
    (hn : Double.toInt32 n = 1) (c : ClientState) :
    (handleLine c line).1.authorized = c.authorized ∧ (handleLine c line).2 = [] := by
  obtain ⟨msg, -, hid, hline⟩ := handleLine_of_some h
  simp only [hline, handleResponse, hid, hn, if_true, if_neg (show (1 : ℤ) ≠ 2 by decide)]
  split <;> simp

/-- A response with any other id is reported as a share result and changes nothing. -/
theorem handleLine_share {line : Bytes} {n : ℚ} (h : responseId line = some n)
    (h2 : Double.toInt32 n ≠ 2) (h1 : Double.toInt32 n ≠ 1) (c : ClientState) :
    ∃ result, handleLine c line = (c, [.onSubmit result]) := by
  obtain ⟨msg, -, hid, hline⟩ := handleLine_of_some h
  simp only [hline, handleResponse, hid, if_neg h2, if_neg h1]
  exact ⟨_, rfl⟩

/-! ## What a line does to the session -/

/-- The integer id a response is dispatched on. -/
def dispatchId (line : Bytes) : Option ℤ := (responseId line).map Double.toInt32

/-- Whether a response carries `result: true` and no error. -/
def accepts (line : Bytes) : Bool :=
  match Json.parse line with
  | none => false
  | some msg => resultTrue msg && !hasError msg

/-- The extranonce values in the result of a response, if it is an array of at least
three elements. -/
def subscription (line : Bytes) : Option (Bytes × UInt32) :=
  match Json.parse line with
  | none => none
  | some msg =>
    match msg.get (bytes "result") with
    | some (.array (_ :: extranonce1 :: extranonce2Size :: _)) =>
      some (extranonce1.asString, Double.toUInt32 extranonce2Size.asNumber)
    | _ => none

/-- What a line is taken to say about the authorization. -/
def authorizeAnswer (line : Bytes) : Option Bool :=
  if dispatchId line = some 2 then some (accepts line) else none

/-- The extranonce values a line is taken to assign. -/
def subscribeAnswer (line : Bytes) : Option (Bytes × UInt32) :=
  if dispatchId line = some 1 then subscription line else none

/-- The extranonce values of the client. -/
def ClientState.extranonce (c : ClientState) : Bytes × UInt32 := (c.extranonce1, c.extranonce2Size)

/-- The extranonce values of the job an event delivers. -/
def Event.extranonce : Event → Option (Bytes × UInt32)
  | .onJob job => some (job.extranonce1, job.extranonce2Size)
  | _ => none

/-- A line sets `authorized_` to what it says about it. -/
theorem authorized_handleLine (c : ClientState) (line : Bytes) :
    (handleLine c line).1.authorized = (authorizeAnswer line).getD c.authorized := by
  unfold authorizeAnswer dispatchId
  cases hid : responseId line with
  | none =>
    rw [(handleLine_of_none hid c).1]
    rfl
  | some n =>
    by_cases h2 : Double.toInt32 n = 2
    · obtain ⟨msg, hmsg, hget, hline⟩ := handleLine_of_some hid
      simp [hline, handleResponse, hget, h2, accepts, hmsg]
    · simp only [Option.map_some, Option.some.injEq, h2, if_false, Option.getD_none]
      by_cases h1 : Double.toInt32 n = 1
      · exact (handleLine_subscribe hid h1 c).1
      · obtain ⟨result, hline⟩ := handleLine_share hid h2 h1 c
        rw [hline]

/-- A line sets the extranonce values to those it assigns. -/
theorem extranonce_handleLine (c : ClientState) (line : Bytes) :
    (handleLine c line).1.extranonce = (subscribeAnswer line).getD c.extranonce := by
  unfold subscribeAnswer dispatchId
  cases hid : responseId line with
  | none =>
    rw [(handleLine_of_none hid c).1]
    rfl
  | some n =>
    by_cases h1 : Double.toInt32 n = 1
    · obtain ⟨msg, hmsg, hget, hline⟩ := handleLine_of_some hid
      simp only [hline, handleResponse, hget, h1, subscription, hmsg, Option.map_some, if_true,
        if_neg (show (1 : ℤ) ≠ 2 by decide)]
      split <;> rfl
    · simp only [Option.map_some, Option.some.injEq, h1, if_false, Option.getD_none]
      by_cases h2 : Double.toInt32 n = 2
      · obtain ⟨b, hline⟩ := handleLine_authorize hid h2 c
        rw [hline]
        rfl
      · obtain ⟨result, hline⟩ := handleLine_share hid h2 h1 c
        rw [hline]

/-- A notification puts the client's extranonce values into its job. -/
theorem extranonce_handleNotify (c : ClientState) (params : Value) :
    ∀ e ∈ (handleNotify c params).2, e.extranonce = some c.extranonce := by
  unfold handleNotify
  split <;> simp [Event.extranonce, ClientState.extranonce]

theorem extranonce_handleSetDifficulty (params : Value) :
    ∀ e ∈ handleSetDifficulty params, e.extranonce = none := by
  unfold handleSetDifficulty
  split <;> simp [Event.extranonce]

theorem extranonce_handleResponse (c : ClientState) (msg : Value) :
    ∀ e ∈ (handleResponse c msg).2, e.extranonce = none := by
  unfold handleResponse
  split
  · rename_i n hid
    by_cases h2 : Double.toInt32 n = 2
    · simp [h2]
    by_cases h1 : Double.toInt32 n = 1
    · simp only [h1, if_true, if_neg (show (1 : ℤ) ≠ 2 by decide)]
      split <;> simp
    · simp [h2, h1, Event.extranonce]
  · simp

/-- A job carries the extranonce values the client has when its line is handled. -/
theorem extranonce_of_mem {c : ClientState} {line : Bytes} {e : Event}
    (he : e ∈ (handleLine c line).2) {p : Bytes × UInt32} (hp : e.extranonce = some p) :
    p = c.extranonce := by
  have hnone : e.extranonce ≠ none := by simp [hp]
  unfold handleLine at he
  split at he
  · simp at he
  split at he
  · simp at he
  simp only at he
  split at he
  · split at he
    · rw [extranonce_handleNotify _ _ e he] at hp
      exact (Option.some.inj hp).symm
    split at he
    · exact absurd (extranonce_handleSetDifficulty _ e he) hnone
    · simp at he
  · exact absurd (extranonce_handleResponse _ _ e he) hnone

/-! ## What a line calls -/

/-- The difficulty a notification carries: its fifth element, if it has seven. -/
def notifyDifficulty (line : Bytes) : Option ℚ :=
  match Json.parse line with
  | none => none
  | some msg =>
    match msg.get (bytes "params") with
    | some (.array [_, _, _, _, difficulty, _, _]) => some difficulty.asNumber
    | _ => none

/-- A line invokes at most one callback. -/
theorem length_handleLine_le (c : ClientState) (line : Bytes) :
    (handleLine c line).2.length ≤ 1 := by
  have hnotify : ∀ params, (handleNotify c params).2.length ≤ 1 := by
    intro params
    unfold handleNotify
    split <;> simp
  have hdifficulty : ∀ params, (handleSetDifficulty params).length ≤ 1 := by
    intro params
    unfold handleSetDifficulty
    split <;> simp
  have hresponse : ∀ msg, (handleResponse c msg).2.length ≤ 1 := by
    intro msg
    unfold handleResponse
    split
    · rename_i n hid
      by_cases h2 : Double.toInt32 n = 2
      · simp [h2]
      by_cases h1 : Double.toInt32 n = 1
      · simp only [h1, if_true, if_neg (show (1 : ℤ) ≠ 2 by decide)]
        split <;> simp
      · simp [h2, h1]
    · simp
  unfold handleLine
  split
  · simp
  split
  · simp
  simp only
  split
  · split
    · exact hnotify _
    split
    · exact hdifficulty _
    · simp
  · exact hresponse _

/-- The difficulty a notification carries is the one of its job. -/
theorem difficulty_of_mem {c : ClientState} {line : Bytes} {job : MiningJob}
    (hjob : .onJob job ∈ (handleLine c line).2) {d : ℚ} (hd : notifyDifficulty line = some d) :
    job.difficulty = d := by
  have hnone : (Event.onJob job).extranonce ≠ none := nofun
  unfold notifyDifficulty at hd
  unfold handleLine at hjob
  split at hjob
  · cases hjob
  split at hjob
  · cases hjob
  rename_i msg hmsg
  rw [hmsg] at hd
  simp only at hd hjob
  split at hjob
  · split at hjob
    · split at hd
      · rename_i difficulty _ _ hparams
        rw [hparams] at hjob
        simp only [Option.getD_some, handleNotify, List.mem_singleton, Event.onJob.injEq] at hjob
        rw [hjob]
        exact Option.some.inj hd
      · cases hd
    split at hjob
    · exact absurd (extranonce_handleSetDifficulty _ _ hjob) hnone
    · cases hjob
  · exact absurd (extranonce_handleResponse _ _ _ hjob) hnone

end CppMiner.Network
