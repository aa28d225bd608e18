-- SUMMARY: The requests of the Stratum client, how they are sent, and that the pool reads back exactly what was sent.
import CppMiner.Lib.Lines
import CppMiner.Utils.OneLine

/-!
# Requests

The four JSON-RPC requests `StratumClient` writes: `mining.subscribe` and
`mining.authorize` with their fixed ids, and the two forms of `mining.submit` with
an id drawn from the counter. `sendLine` writes one request and a newline, in as
many pieces as `send` takes.

The pool that cuts the stream at newlines and parses each line gets back the
requests, one a line, whatever bytes they carry (`requests_read_back`).
-/

namespace CppMiner.Network

open Json (Value)

/-- The constructor arguments of the client that its requests carry. -/
structure Login where
  wallet : Bytes
  worker : Bytes
  password : Bytes

/-- A JSON-RPC request; every request's parameters are strings. -/
structure Request where
  id : ℤ
  method : Bytes
  params : List Bytes
  deriving DecidableEq

namespace Request

/-- The array of parameters, pushed one by one. -/
def paramsValue (params : List Bytes) : Value :=
  params.foldl (fun arr p => arr.push (.makeString p)) .makeArray

/-- The request object, with its fields in the order the client sets them. -/
def toValue (r : Request) : Value :=
  ((Value.makeObject.set (bytes "id") (.makeNumber r.id)).set
    (bytes "method") (.makeString r.method)).set (bytes "params") (paramsValue r.params)

/-- What `sendLine` writes for the request. -/
def line (r : Request) : Bytes := r.toValue.dump ++ [newline]

/-- Read a request object back. -/
def ofValue (v : Value) : Option Request :=
  match v.get (bytes "id"), v.get (bytes "method"), v.get (bytes "params") with
  | some (.number n), some (.string method), some (.array params) =>
    some ⟨⌊n⌋, method, params.map Value.asString⟩
  | _, _, _ => none

end Request

/-! ## Building requests -/

/-- `++nextRequestId_`. Overflow of the counter wraps. -/
def preIncrement (nextRequestId : ℤ) : ℤ := Int.bmod (nextRequestId + 1) (2 ^ 32)

/-- The name the client logs in and submits under. -/
def Login.user (login : Login) : Bytes := login.wallet ++ bytes "." ++ login.worker

def subscribeRequest : Request := ⟨1, bytes "mining.subscribe", [bytes "cpp-miner/1.0"]⟩

def authorizeRequest (login : Login) : Request :=
  ⟨2, bytes "mining.authorize", [login.user, login.password]⟩

def submitShareRequest (login : Login) (requestId : ℤ)
    (jobId extranonce2 ntime nonceHex : Bytes) : Request :=
  ⟨requestId, bytes "mining.submit", [login.user, jobId, extranonce2, ntime, nonceHex]⟩

def submitBlobShareRequest (login : Login) (requestId : ℤ) (jobId workBlob : Bytes) : Request :=
  ⟨requestId, bytes "mining.submit", [login.user, jobId, workBlob]⟩

/-- A call of `submitShare` or `submitBlobShare`. -/
inductive Submit where
  | share (jobId extranonce2 ntime nonceHex : Bytes)
  | blobShare (jobId workBlob : Bytes)

/-- The job a share is submitted for. -/
def Submit.jobId : Submit → Bytes
  | .share jobId _ _ _ | .blobShare jobId _ => jobId

/-- The request a submit makes with the id it has drawn. -/
def Submit.request (login : Login) (requestId : ℤ) : Submit → Request
  | .share jobId extranonce2 ntime nonceHex =>
    submitShareRequest login requestId jobId extranonce2 ntime nonceHex
  | .blobShare jobId workBlob => submitBlobShareRequest login requestId jobId workBlob

/-- A call that makes the client send a request. -/
inductive Call where
  | subscribe
  | authorize
  | submit (share : Submit)

/-- The counter after the call: only a submit draws an id. -/
def Call.draw (nextRequestId : ℤ) : Call → ℤ
  | .subscribe | .authorize => nextRequestId
  | .submit _ => preIncrement nextRequestId

/-- The request a call makes. -/
def Call.request (login : Login) (nextRequestId : ℤ) : Call → Request
  | .subscribe => subscribeRequest
  | .authorize => authorizeRequest login
  | .submit share => share.request login (preIncrement nextRequestId)

/-- The requests of a sequence of calls. -/
def requests (login : Login) : ℤ → List Call → List Request
  | _, [] => []
  | nextRequestId, c :: cs =>
    c.request login nextRequestId :: requests login (c.draw nextRequestId) cs

/-! ## Sending -/

/-- The loop of `sendLine`: what reaches the socket while `send` returns the given
values in turn, and whether the loop gets to the end of the data. -/
def sendLoop : Bytes → List ℤ → Bytes × Bool
  | [], _ => ([], true)
  | _ :: _, [] => ([], false)
  | b :: data, n :: returns =>
    if n ≤ 0 then ([], false)
    else
      let (sent, ok) := sendLoop ((b :: data).drop n.toNat) returns
      ((b :: data).take n.toNat ++ sent, ok)

/-- `sendLine` of a request on an open socket. -/
def sendLine (r : Request) (returns : List ℤ) : Bytes × Bool := sendLoop r.line returns

/-- The stream a sequence of calls writes, each with the values its `send`s return,
up to the first that fails. -/
def sendCalls (login : Login) : ℤ → List (Call × List ℤ) → Bytes × Bool
  | _, [] => ([], true)
  | nextRequestId, (c, returns) :: cs =>
    match sendLine (c.request login nextRequestId) returns with
    | (sent, false) => (sent, false)
    | (sent, true) =>
      let (rest, ok) := sendCalls login (c.draw nextRequestId) cs
      (sent ++ rest, ok)

/-! ## A request is one line -/

namespace Request

theorem paramsValue_eq (params : List Bytes) :
    paramsValue params = .array (params.map .string) := by
  have general : ∀ (params : List Bytes) (xs : List Value),
      params.foldl (fun (arr : Value) p => arr.push (.makeString p)) (.array xs) =
        Value.array (xs ++ params.map .string) := by
    intro params
    induction params with
    | nil => simp
    | cons p params ih =>
      intro xs
      rw [List.foldl_cons, show (Value.array xs).push (.makeString p) =
        .array (xs ++ [.string p]) from rfl, ih]
      simp
  simpa [paramsValue, Value.makeArray] using general params []

theorem toValue_eq (r : Request) :
    r.toValue = .object [(bytes "id", .number r.id), (bytes "method", .string r.method),
      (bytes "params", .array (r.params.map .string))] := by
  simp [toValue, paramsValue_eq, Value.set, Value.setMember, Value.makeObject,
    Value.makeNumber, Value.makeString, bytes]

theorem built_toValue {r : Request} (h : |r.id| ≤ 2 ^ 53) : r.toValue.Built := by
  have hparams : (paramsValue r.params).Built := by
    have general : ∀ (params : List Bytes) (xs : List Value), (Value.array xs).Built →
        (params.foldl (fun (arr : Value) p => arr.push (.makeString p)) (.array xs)).Built := by
      intro params
      induction params with
      | nil => exact fun xs hxs => hxs
      | cons p params ih => exact fun xs hxs => ih _ (.push hxs (.makeString p))
    exact general _ _ .makeArray
  exact .set _ (.set _ (.set _ .makeObject (.makeNumber _ h)) (.makeString _)) hparams

theorem ofValue_toValue (r : Request) : ofValue r.toValue = some r := by
  have hid : (bytes "id" = bytes "method") = False := by decide
  have hid' : (bytes "id" = bytes "params") = False := by decide
  have hmethod : (bytes "method" = bytes "params") = False := by decide
  have hparams : r.params.map (Value.asString ∘ Value.string) = r.params :=
    List.map_id'' (fun _ => rfl) _
  simp [toValue_eq, ofValue, Value.get, hid, hid', hmethod, hparams]

theorem parse_dump_toValue {r : Request} (h : |r.id| ≤ 2 ^ 53) :
    Json.parse r.toValue.dump = some r.toValue :=
  Json.parse_dump_of_wellFormed (built_toValue h).wellFormed

end Request

theorem abs_preIncrement_le (n : ℤ) : |preIncrement n| ≤ 2 ^ 53 := by
  have hlo := Int.le_bmod (x := n + 1) (m := 2 ^ 32) (by norm_num)
  have hhi := Int.bmod_lt (x := n + 1) (m := 2 ^ 32) (by norm_num)
  rw [preIncrement, abs_le]
  norm_num at hlo hhi ⊢
  omega

theorem Call.abs_request_id_le (login : Login) (n : ℤ) (c : Call) :
    |(c.request login n).id| ≤ 2 ^ 53 := by
  cases c with
  | subscribe => simp [request, subscribeRequest]
  | authorize => simp [request, authorizeRequest]
  | submit share => cases share <;> exact abs_preIncrement_le n

/-- A loop that gets to the end has written all of the data. -/
theorem sendLoop_of_ok {data : Bytes} {returns : List ℤ} (h : (sendLoop data returns).2 = true) :
    (sendLoop data returns).1 = data := by
  induction returns generalizing data with
  | nil =>
    cases data with
    | nil => rfl
    | cons b data => cases h
  | cons n returns ih =>
    cases data with
    | nil => rfl
    | cons b data =>
      rw [sendLoop] at h ⊢
      split at h
      · cases h
      · rename_i hn
        simp only [if_neg hn]
        rw [ih h, List.take_append_drop]

/-- The stream of calls that all succeed is the lines of their requests. -/
theorem sendCalls_of_ok (login : Login) {nextRequestId : ℤ} {calls : List (Call × List ℤ)}
    (h : (sendCalls login nextRequestId calls).2 = true) :
    (sendCalls login nextRequestId calls).1 =
      Lines.join newline
        ((requests login nextRequestId (calls.map (·.1))).map fun r => r.toValue.dump) := by
  induction calls generalizing nextRequestId with
  | nil => rfl
  | cons call calls ih =>
    obtain ⟨c, returns⟩ := call
    rw [sendCalls] at h ⊢
    split at h
    · cases h
    · rename_i sent hsent
      have hline : sent = (c.request login nextRequestId).line := by
        have hok : (sendLoop (c.request login nextRequestId).line returns).2 = true := by
          rw [← sendLine, hsent]
        have hdata := sendLoop_of_ok hok
        rwa [← sendLine, hsent] at hdata
      simp only at h ⊢
      rw [ih h, hline]
      simp [requests, Request.line]

theorem requests_abs_id_le (login : Login) (nextRequestId : ℤ) (calls : List Call) :
    ∀ r ∈ requests login nextRequestId calls, |r.id| ≤ 2 ^ 53 := by
  induction calls generalizing nextRequestId with
  | nil => simp [requests]
  | cons c calls ih =>
    intro r hr
    rw [requests, List.mem_cons] at hr
    rcases hr with rfl | hr
    · exact c.abs_request_id_le login nextRequestId
    · exact ih _ r hr

/-- No request can break or forge another: cutting the stream of successful calls at
newlines and parsing each line gives exactly the request objects, one a line, with
the ids, methods and parameters that were sent. -/
theorem requests_read_back (login : Login) (nextRequestId : ℤ) (calls : List (Call × List ℤ))
    (h : (sendCalls login nextRequestId calls).2 = true) :
    let stream := (sendCalls login nextRequestId calls).1
    let reqs := requests login nextRequestId (calls.map (·.1))
    Lines.remainder newline stream = [] ∧
      (Lines.segments newline stream).map Json.parse = reqs.map (fun r => some r.toValue) ∧
      (Lines.segments newline stream).map (fun l => (Json.parse l).bind Request.ofValue) =
        reqs.map some := by
  intro stream reqs
  have hid : ∀ r ∈ reqs, |r.id| ≤ 2 ^ 53 := requests_abs_id_le login nextRequestId _
  have hsplit : Lines.split newline stream = (reqs.map fun r => r.toValue.dump, []) := by
    rw [show stream = _ from sendCalls_of_ok login h, ← List.append_nil (Lines.join _ _)]
    refine Lines.split_join ?_ List.not_mem_nil
    intro l hl
    obtain ⟨r, -, rfl⟩ := List.mem_map.mp hl
    exact Json.newline_notMem_dump _
  have hsegments : Lines.segments newline stream = reqs.map fun r => r.toValue.dump := by
    rw [Lines.segments, hsplit]
  refine ⟨by rw [Lines.remainder, hsplit], ?_, ?_⟩
  · rw [hsegments, List.map_map]
    refine List.map_congr_left fun r hr => ?_
    exact Request.parse_dump_toValue (hid r hr)
  · rw [hsegments, List.map_map]
    refine List.map_congr_left fun r hr => ?_
    simp [Request.parse_dump_toValue (hid r hr), Request.ofValue_toValue]

theorem requests_read_back_hostile :
    let login : Login := ⟨bytes "w\n", bytes "\"", bytes "\x00"⟩
    let calls : List (Call × List ℤ) :=
      [(.subscribe, [100]), (.authorize, [1, 100]), (.submit (.blobShare (bytes "\\") []), [100])]
    let stream := (sendCalls login 1 calls).1
    (Lines.segments newline stream).map (fun l => (Json.parse l).bind Request.ofValue) =
      (requests login 1 (calls.map (·.1))).map some := by
  intro login calls
  exact (requests_read_back login 1 calls (by decide +kernel)).2.2

end CppMiner.Network
