-- SUMMARY: The engine's `stop` returns too, and after both stops nothing moves until something is started again.
import CppMiner.Network.Stopping
import CppMiner.Network.Termination
import CppMiner.Program.Records

/-!
# Termination of the program

`main` stops the engine first and the client after it. A worker tests `running_` only
between batches, so that it goes through the batch it is in, or the one it is about to
begin, to its end; what that takes is bounded by the size of a batch and by the lines of
the shares it finds (`engineStop_returns`). When both stops have returned, no thread is
left that could write, submit or count anything (`halted_stays`).
-/

namespace CppMiner.Program

open Hash.Cryptonight (Stack)
open Miner (Engine MiningJob Setup WorkerThread Worker Published Snapshot Attempt kBatchSize
  batch_ok triedNonces)
open Network (Login Request Thread)

namespace State

variable {login : Login} {setup : Setup} {s s' : State} {l : Label}

/-! ## Where the workers are -/

/-- What holds of the threads of the engine and the client together. -/
structure Coherent (s : State) : Prop where
  joining : s.engine.joining = true → s.engine.running = false
  halted : s.engine.running = false → s.engine.joining = false →
    ∀ i, s.engine.workers i = .exited
  /-- A worker calls the client from a batch only. -/
  sending : ∀ i, s.client.workers i ≠ none →
    ∃ worker b left, s.engine.workers i = .mining worker b left
  batch : ∀ i worker b left, s.engine.workers i = .mining worker b left →
    left.length ≤ kBatchSize

theorem length_le_of_begin {worker worker' : Worker} {b b' : Snapshot} {stack : ℕ → Stack}
    {left : List Attempt} (h : WorkerThread.begin worker b stack = .mining worker' b' left) :
    left.length ≤ kBatchSize := by
  unfold WorkerThread.begin at h
  split at h
  · rename_i xs worker₁ hbatch
    cases h
    rw [← (batch_ok hbatch).attempts.length_eq, triedNonces]
    split
    · exact Nat.zero_le _
    · simp [Miner.batchNonces]
  · cases h

theorem Coherent.batch_next (h : s.Coherent) (hstep : Step login setup s l s') {i : ℕ}
    {worker : Worker} {b : Snapshot} {left : List Attempt}
    (hi : s'.engine.workers i = .mining worker b left) : left.length ≤ kBatchSize := by
  rcases hstep.mining hi with hi | ⟨x, hi⟩ | ⟨stack, -, hbegin⟩
  · exact h.batch i worker b left hi
  · have hlen := h.batch i worker b (x :: left) hi
    rw [List.length_cons] at hlen
    omega
  · obtain ⟨worker', p, -, -, ht⟩ := beginning_eq_some hbegin
    exact length_le_of_begin ht.symm

/-- Only a worker in a batch gets a request, and it stays in the batch until the client
has returned. -/
theorem Coherent.sending_next (hb : s.client.Basic login) (h : s.Coherent)
    (hstep : Step login setup s l s') {i : ℕ} (hi : s'.client.workers i ≠ none) :
    ∃ worker b left, s'.engine.workers i = .mining worker b left := by
  -- a step moves worker `j` only when it has no request, and `i` has one
  have hset : ∀ (j : ℕ) (t : WorkerThread), s.client.workers j = none →
      s.client.workers i ≠ none →
      ∃ worker b left, (s.engine.setWorker j t).workers i = .mining worker b left := by
    intro j t hj hi
    have hne : i ≠ j := by
      rintro rfl
      exact hi hj
    simp only [Engine.setWorker, Function.update_of_ne hne]
    exact h.sending i hi
  have hnone : ∀ j, (∀ worker b left, s.engine.workers j ≠ .mining worker b left) →
      s.client.workers j = none := by
    intro j hj
    by_contra hsome
    obtain ⟨worker, b, left, hmining⟩ := h.sending j hsome
    exact hj worker b left hmining
  cases hstep with
  | client l he hline hsubmit =>
    obtain ⟨r, hr⟩ := Option.ne_none_iff_exists'.mp hi
    exact h.sending i (by simp [Network.State.workers_next hb he hsubmit hr])
  | reported line rest he hline hevents => exact h.sending i hi
  | job line rest job he hline hevents => exact h.sending i hi
  | difficulty line rest d he hline hevents => exact h.sending i hi
  -- `start` replaces the workers only where all have returned, and these have no request
  | engineStart hjoin =>
    obtain ⟨worker, b, left, hmining⟩ := h.sending i hi
    cases hrun : s.engine.running with
    | true => exact ⟨worker, b, left, by simpa [Engine.start, hrun] using hmining⟩
    | false =>
      rw [h.halted hrun hjoin i] at hmining
      cases hmining
  | engineStop hjoin => simpa using h.sending i hi
  | engineJoin hjoin hexited => exact h.sending i hi
  | check j worker hj => exact hset j _ (hnone j (by simp [hj])) hi
  | take j worker p hj hp => exact hset j _ (hnone j (by simp [hj])) hi
  | idle j worker hj hp => exact hset j _ (hnone j (by simp [hj])) hi
  | load j stack worker p hj snapshot hsnapshot => exact hset j _ (hnone j (by simp [hj])) hi
  | missed j worker snapshot x left hj hfree hx => exact hset j _ hfree hi
  | finish j worker snapshot hj hfree => exact hset j _ hfree hi
  | submitted j worker snapshot x left hj hfree share hx request hrequest =>
    by_cases hne : i = j
    · subst hne
      exact ⟨worker, snapshot, left, by simp [Engine.setWorker]⟩
    · refine hset j _ hfree ?_
      simpa [Network.State.submit, Function.update_of_ne hne] using hi

theorem Coherent.next (hb : s.client.Basic login) (hr : s.Recorded login setup) (h : s.Coherent)
    (hstep : Step login setup s l s') : s'.Coherent := by
  have hjoining := h.joining
  have hhalted := h.halted
  have hnot : ∀ {i : ℕ} {t : WorkerThread}, s.engine.workers i = t → t ≠ .exited →
      s.engine.running = false → s.engine.joining = false → False := by
    rintro i t rfl ht hrun hjoin
    exact ht (hhalted hrun hjoin i)
  refine ⟨?_, ?_, fun i => h.sending_next hb hstep, fun i _ _ _ hi => h.batch_next hstep hi⟩
  · cases hstep with
    | engineStart hjoin =>
      simp only [Engine.start]
      split <;> simp [hjoin]
    | engineStop hjoin =>
      simp only [Engine.stop]
      split <;> simp [hjoin]
    | engineJoin hjoin hexited => simp
    | _ => exact hjoining
  · cases hstep with
    | engineStart hjoin =>
      simp only [Engine.start]
      split
      · exact hhalted
      · simp
    | engineStop hjoin =>
      simp only [Engine.stop]
      split
      · simp
      · exact hhalted
    | engineJoin hjoin hexited =>
      intro _ _ i
      by_cases hi : i < setup.threads
      · exact hexited i hi
      · exact hr.beyond i (Nat.le_of_not_lt hi)
    | check j worker hj =>
      exact fun hrun hjoin => (hnot hj (by simp) hrun hjoin).elim
    | take j worker p hj hp =>
      exact fun hrun hjoin => (hnot hj (by simp) hrun hjoin).elim
    | idle j worker hj hp =>
      exact fun hrun hjoin => (hnot hj (by simp) hrun hjoin).elim
    | load j stack worker p hj snapshot hsnapshot =>
      exact fun hrun hjoin => (hnot hj (by simp) hrun hjoin).elim
    | missed j worker snapshot x left hj hfree hx =>
      exact fun hrun hjoin => (hnot hj (by simp) hrun hjoin).elim
    | submitted j worker snapshot x left hj hfree share hx request hrequest =>
      exact fun hrun hjoin => (hnot hj (by simp) hrun hjoin).elim
    | finish j worker snapshot hj hfree =>
      exact fun hrun hjoin => (hnot hj (by simp) hrun hjoin).elim
    | _ => exact hhalted

/-! ## What a worker has left to do -/

/-- The most that a worker can still do in `workerLoop` once `running_` is cleared. -/
def stepsLeft : WorkerThread → ℕ
  | .exited | .died => 0
  | .checking _ => 1
  | .mining _ _ left => left.length + 2
  | .holding .. => kBatchSize + 3
  | .fetching _ => kBatchSize + 4

/-- The same with what it has to send. -/
def workerSteps (s : State) (i : ℕ) : ℕ :=
  stepsLeft (s.engine.workers i) + (s.client.workers i).elim 0 (s.client.toSend (.worker i))

/-- The steps of worker `i`: those of `workerLoop`, and those of its `sendLine`. -/
def takes (s : State) (i : ℕ) : Label → Bool
  | .client l => s.client.takes (.worker i) l
  | .check j | .take j | .load j _ | .attempt j | .finish j => j = i
  | .engineStart | .engineStop | .engineJoin => false

/-- What sending a share takes, where worker `i` finds one: a step for the mutex and at
most one for each byte. -/
def shareSteps (login : Login) (i : ℕ) (s : State) : Label → ℕ
  | .attempt j =>
    if j = i then
      ((s.attempt login i).bind fun s' => s'.client.workers i).elim 0 (·.line.length + 1)
    else 0
  | _ => 0

theorem stepsLeft_begin (worker : Worker) (b : Snapshot) (stack : ℕ → Stack) :
    stepsLeft (.begin worker b stack) ≤ kBatchSize + 2 := by
  cases hbegin : WorkerThread.begin worker b stack with
  | mining worker' b' left =>
    have hlen := length_le_of_begin hbegin
    simp only [stepsLeft]
    omega
  | exited => simp [stepsLeft]
  | died => simp [stepsLeft]
  | checking _ => simp [stepsLeft]
  | fetching _ =>
    unfold WorkerThread.begin at hbegin
    split at hbegin <;> cases hbegin
  | holding _ _ => exact absurd hbegin begin_ne_holding

/-- The client's steps that are no submits lower what a worker has to send. -/
theorem toSend_client (hb : s.client.Basic login) {k : Network.Label}
    (he : s.client.Enabled login k) (hsubmit : ∀ i share, k ≠ .submit i share) (i : ℕ) :
    (s.client.takes (.worker i) k).toNat +
        ((s.client.next login k).workers i).elim 0
          ((s.client.next login k).toSend (.worker i)) ≤
      (s.client.workers i).elim 0 (s.client.toSend (.worker i)) := by
  have htakes := Bool.toNat_le (s.client.takes (.worker i) k)
  cases hsends : k.sends with
  | false =>
    have hf := Network.State.next_frame hb he hsends
    have hnot : s.client.takes (.worker i) k = false := by
      cases k <;> simp_all [Network.Label.sends, Network.State.takes]
    have htoSend := Network.State.toSend_of_eq hf.writeMutex (.worker i)
    rw [hnot, hf.workers, Bool.toNat_false, Nat.zero_add]
    cases s.client.workers i with
    | none => exact le_rfl
    | some r => exact (htoSend r).le
  -- a step on the mutex either leaves the worker its request or ends its `sendLine`
  | true =>
    have hstep := Network.State.next_sends he hsends
    have hkeeps : ∀ r, (s.client.next login k).workers i = some r →
        s.client.workers i = some r :=
      fun r => Network.State.workers_next hb he hsubmit
    generalize s.client.next login k = c at hstep hkeeps
    cases hnew : c.workers i with
    | some r =>
      have hold := hkeeps r hnew
      rw [hold]
      by_cases hc : k = .connected
      · subst hc
        cases hstep with
        | connected hnet =>
          have htoSend : ∀ t r, s.client.connected.toSend t r = s.client.toSend t r :=
            Network.State.toSend_of_eq rfl
          rw [Option.elim_some, Option.elim_some, htoSend]
          simp [Network.State.takes]
      · exact hstep.toSend_le hb hc (.worker i) hnew hold
    | none =>
      rw [Option.elim_none, Nat.add_zero]
      cases hold : s.client.workers i with
      | some r =>
        have hpos := hb.toSend_pos (t := .worker i) hold
        rw [Option.elim_some]
        omega
      | none =>
        rw [Option.elim_none, Nat.le_zero, Bool.toNat_eq_zero]
        by_cases hc : k = .connected
        · subst hc
          rfl
        · exact hstep.takes_eq_false hb hc hold fun j share heq => absurd heq (hsubmit j share)

/-- A step of `workerLoop` that submits nothing. -/
theorem workerSteps_setWorker (s : State) (j : ℕ) (t : WorkerThread)
    (h : stepsLeft t + 1 ≤ stepsLeft (s.engine.workers j)) (i n : ℕ) :
    (decide (j = i)).toNat + workerSteps { s with engine := s.engine.setWorker j t } i ≤
      s.workerSteps i + n := by
  simp only [workerSteps, Engine.setWorker]
  by_cases hj : j = i
  · subst hj
    simp only [Function.update_self, decide_true, Bool.toNat_true]
    omega
  · simp only [Function.update_of_ne (Ne.symm hj), hj, decide_false, Bool.toNat_false]
    omega

/-- A step that neither moves a worker nor writes. -/
theorem workerSteps_of_eq (s s' : State) (hworkers : s'.engine.workers = s.engine.workers)
    (hclient : s'.client.workers = s.client.workers)
    (hmutex : s'.client.writeMutex = s.client.writeMutex) (i n : ℕ) :
    false.toNat + s'.workerSteps i ≤ s.workerSteps i + n := by
  have htoSend := funext (Network.State.toSend_of_eq hmutex (.worker i))
  rw [workerSteps, workerSteps, hworkers, hclient, htoSend, Bool.toNat_false]
  omega

/-- Once `running_` is cleared, a worker only gets nearer to its end, but for the lines of
the shares it still finds. -/
theorem workerSteps_next (hb : s.client.Basic login) (hc : s.Coherent)
    (hjoining : s.engine.joining = true) (h : s.step login setup l = some s') (i : ℕ) :
    (s.takes i l).toNat + s'.workerSteps i ≤ s.workerSteps i + shareSteps login i s l := by
  have hrun := hc.joining hjoining
  cases step_cases h with
  -- the client pays from what the worker has to send, the engine from its loop
  | client k he hline hsubmit =>
    have hsend := toSend_client hb he hsubmit i
    simp only [takes, workerSteps, shareSteps]
    omega
  | reported line rest he hline hevents => apply workerSteps_of_eq s <;> rfl
  | job line rest job he hline hevents => apply workerSteps_of_eq s <;> rfl
  | difficulty line rest d he hline hevents => apply workerSteps_of_eq s <;> rfl
  | engineStart hjoin => simp [hjoining] at hjoin
  | engineStop hjoin => simp [hjoining] at hjoin
  | engineJoin hjoin hexited => apply workerSteps_of_eq s <;> rfl
  | check j worker hj =>
    exact workerSteps_setWorker s j _ (by simp [hrun, hj, stepsLeft]) i _
  | take j worker p hj hp =>
    exact workerSteps_setWorker s j _ (by simp [hj, stepsLeft]) i _
  | idle j worker hj hp =>
    exact workerSteps_setWorker s j _ (by simp [hj, stepsLeft]) i _
  | load j stack worker p hj snapshot hsnapshot =>
    have hbegin := stepsLeft_begin worker snapshot stack
    refine workerSteps_setWorker s j (.begin worker snapshot stack) ?_ i _
    rw [hj, stepsLeft]
    omega
  | finish j worker snapshot hj hfree =>
    exact workerSteps_setWorker s j _ (by simp [hj, stepsLeft]) i _
  | missed j worker snapshot x left hj hfree hx =>
    exact workerSteps_setWorker s j _ (by simp [hj, stepsLeft]) i _
  -- a share costs an attempt and brings its line, which `shareSteps` has allowed for
  | submitted j worker snapshot x left hj hfree share hx request hrequest =>
    have hattempt : s.attempt login j = some
        { client := s.client.submit login j share
          engine := { s.engine.setWorker j (.mining worker snapshot left) with
            submissions := s.engine.submissions ++
              [⟨snapshot, x, request, s.engine.cleanFrom⟩] } } := h
    by_cases hij : j = i
    · subst hij
      have hline := (s.client.submit login j share).toSend_le_length (.worker j)
        (share.request login (Network.preIncrement s.client.nextRequestId))
      simp only [takes, workerSteps, shareSteps, hattempt, Option.bind_some, if_true, hfree, hj,
        stepsLeft, Engine.setWorker, Function.update_self, Network.State.submit, Option.elim_some,
        Option.elim_none, List.length_cons, decide_true, Bool.toNat_true] at hline ⊢
      omega
    · have htoSend : (s.client.submit login j share).toSend (.worker i) =
          s.client.toSend (.worker i) :=
        funext (Network.State.toSend_of_eq rfl (.worker i))
      have hworkers : (s.client.submit login j share).workers i = s.client.workers i :=
        Function.update_of_ne (Ne.symm hij) _ _
      simp [takes, workerSteps, shareSteps, hij, htoSend, hworkers, Engine.setWorker,
        Function.update_of_ne (Ne.symm hij)]

/-! ## Nothing is stuck -/

/-- The steps that a call of `stop` of the engine waits for: its own, those of the
workers, and those of the `sendLine` that keeps a worker from `writeMutex_`. -/
def Awaited (setup : Setup) (s : State) : Label → Prop
  | .engineJoin | .client (.send _) | .client .sendError => True
  | l => ∃ i < setup.threads, s.takes i l = true

/-- Unless an exception has ended a worker, it can go on, or the holder of the mutex
can. -/
theorem exists_step_of_worker {i : ℕ} (hi : i < setup.threads)
    (hexited : s.engine.workers i ≠ .exited) (hdied : s.engine.workers i ≠ .died)
    (hjob : s.engine.jobQueue.current ≠ none) :
    ∃ l, (s.step login setup l).isSome ∧ s.Awaited setup l := by
  have htakes : ∃ j < setup.threads, decide (i = j) = true := ⟨i, hi, decide_eq_true rfl⟩
  cases hw : s.engine.workers i with
  | exited => exact absurd hw hexited
  | died => exact absurd hw hdied
  | checking worker => exact ⟨.check i, by simp [step, Engine.check, hw], htakes⟩
  | fetching worker =>
    obtain ⟨p, hp⟩ := Option.ne_none_iff_exists'.mp hjob
    exact ⟨.take i, by simp [step, Engine.take, hw, hp], htakes⟩
  | holding worker p =>
    exact ⟨.load i fun _ _ => Vector.replicate 25 0, by simp [step, Engine.load, hw], htakes⟩
  | mining worker b left =>
    cases hfree : s.client.workers i with
    | none =>
      cases left with
      | nil => exact ⟨.finish i, by simp [step, Engine.finish, hw, hfree], htakes⟩
      | cons x left =>
        cases hx : x.submitted with
        | none => exact ⟨.attempt i, by simp [step, attempt, hw, hfree, hx], htakes⟩
        | some share => exact ⟨.attempt i, by simp [step, attempt, hw, hfree, hx], htakes⟩
    -- the worker is in `sendLine`, behind the mutex or in a `send`
    | some r =>
      have hpending : s.client.pending login (.worker i) = some r := hfree
      cases hmutex : s.client.writeMutex with
      | none =>
        refine ⟨.client (.lock (.worker i)), ?_, i, hi, by simp [takes, Network.State.takes]⟩
        simp [step, stepClient, Network.State.Enabled, hmutex, hpending]
      | some w =>
        refine ⟨.client .sendError, ?_, trivial⟩
        simp [step, stepClient, Network.State.Enabled, hmutex]

/-- While `stop` has not returned and no exception has ended a worker, it or a thread it
waits for can take a step. -/
theorem exists_awaited (hr : s.Recorded login setup) (hjoining : s.engine.joining = true)
    (hdied : ∀ i < setup.threads, s.engine.workers i ≠ .died) :
    ∃ l, (program login setup).Enabled s l ∧ s.Awaited setup l := by
  by_cases hexited : ∀ i < setup.threads, s.engine.workers i = .exited
  · refine ⟨.engineJoin, ?_, trivial⟩
    exact (TransitionSystem.enabled_of_step (init setup)
      (by simp only [step]; exact if_pos ⟨hjoining, fun i hi => by rw [hexited i hi]⟩)).1
  · push Not at hexited
    obtain ⟨i, hi, hne⟩ := hexited
    obtain ⟨p, hp, -⟩ := hr.current
    exact exists_step_of_worker hi hne (hdied i hi) (by simp [hp])

/-! ## After both stops -/

/-- Both stops have returned, or nothing was ever started. -/
def Halted (s : State) : Prop :=
  s.client.Returned ∧ s.engine.running = false ∧ s.engine.joining = false

instance (s : State) : Decidable s.Halted :=
  inferInstanceAs (Decidable (s.client.Returned ∧ s.engine.running = false ∧
    s.engine.joining = false))

/-- Nothing but a start changes anything any more. -/
theorem Halted.next (hb : s.client.Basic login) (hc : s.Coherent) (h : s.Halted)
    (hstep : Step login setup s l s') (hstart : l ≠ .client .start ∧ l ≠ .engineStart) :
    s' = s := by
  obtain ⟨⟨huser, hrunning⟩, hengine, hjoining⟩ := h
  have hnet := hb.idle huser hrunning
  have hexited := hc.halted hengine hjoining
  -- with no network thread and no worker nobody is in `sendLine`, and nobody holds its mutex
  have hnone : ∀ t, s.client.pending login t = none := by
    rintro (_ | i)
    · simp [Network.State.pending, hnet, Network.State.handshake]
    · by_contra hsome
      obtain ⟨worker, b, left, hmining⟩ := hc.sending i hsome
      rw [hexited i] at hmining
      cases hmining
  have hmutex : s.client.writeMutex = none := by
    by_contra hsome
    obtain ⟨w, hw⟩ := Option.ne_none_iff_exists'.mp hsome
    exact hb.not_holder (hnone w.thread) w hw rfl
  -- so that of all steps only a `stop` can be taken, and it does nothing
  cases hstep with
  | client k he hline hsubmit =>
    cases k with
    | start => exact absurd rfl hstart.1
    | stop => simp [Network.State.next, Network.State.stop, hrunning]
    | submit i share => exact absurd rfl (hsubmit i share)
    | line => exact absurd rfl hline
    | lock t => simp [Network.State.Enabled, hnone t] at he
    | _ => simp [Network.State.Enabled, huser, hnet, hmutex] at he
  | reported line rest he hline hevents => simp [Network.State.Enabled, hnet] at he
  | job line rest job he hline hevents => simp [Network.State.Enabled, hnet] at he
  | difficulty line rest d he hline hevents => simp [Network.State.Enabled, hnet] at he
  | engineStart hjoin => exact absurd rfl hstart.2
  | engineStop hjoin => simp [Engine.stop, hengine]
  | engineJoin hjoin hall =>
    rw [hjoining] at hjoin
    cases hjoin
  | check j worker hj => simp [hexited j] at hj
  | take j worker p hj hp => simp [hexited j] at hj
  | idle j worker hj hp => simp [hexited j] at hj
  | load j stack worker p hj snapshot hsnapshot => simp [hexited j] at hj
  | missed j worker snapshot x left hj hfree hx => simp [hexited j] at hj
  | submitted j worker snapshot x left hj hfree share hx request hrequest =>
    simp [hexited j] at hj
  | finish j worker snapshot hj hfree => simp [hexited j] at hj

end State

open State

theorem coherent_of_reach {login : Login} {setup : Setup} {P : State → Label → Prop} {s : State}
    (h : (program login setup).Reach P s) : s.Coherent := by
  refine invariant_of (J := fun s => s.client.Basic login ∧ s.Recorded login setup)
    (fun _ hs => ⟨Network.basic_of_reach (client_of_reach hs), recorded_of_reach hs⟩) ?_
    (fun _ _ _ hJ hc hstep _ => hc.next hJ.1 hJ.2 hstep) h
  exact ⟨nofun, fun _ _ _ => rfl, fun _ hne => absurd rfl hne, nofun⟩

/-- When both stops have returned, no step but a start changes anything: nothing is
written, submitted, handled or counted any more. -/
theorem halted_stays {login : Login} {setup : Setup} {s : State}
    (h : (program login setup).Reachable s) (hhalted : s.Halted) {run : List Label}
    (hrun : (program login setup).Valid (fun _ l => l ≠ .client .start ∧ l ≠ .engineStart) s run) :
    (program login setup).exec s run = s := by
  induction run with
  | nil => rfl
  | cons l run ih =>
    obtain ⟨⟨he, hstart⟩, hrun⟩ := hrun
    have hnext : (program login setup).next s l = s :=
      hhalted.next (Network.basic_of_reach (client_of_reach h)) (coherent_of_reach h)
        (step_cases (TransitionSystem.step_eq_some he)) hstart
    rw [hnext] at hrun
    rw [TransitionSystem.exec, List.foldl_cons, hnext]
    exact ih hrun

/-- Both parts are stopped in the order of `main`, and then once more. -/
theorem halted_stays_stopped :
    let login : Login := ⟨bytes "wallet", bytes "rig", bytes "x"⟩
    let setup : Setup := { algorithm := .sha256d {}, threads := 1 }
    let s := after login setup ((Network.handshakeRun login).map .client ++
      [.engineStart, .engineStop, .check 0, .engineJoin] ++
      [Network.Label.stop, .stopDisconnect, .connectionLost, .checkLost, .join].map .client)
    s.client.opened = 1 ∧ (program login setup).exec s [.engineStop, .client .stop] = s := by
  intro login setup s
  have hvalid : (program login setup).Valid (fun _ _ => True) (init setup)
        ((Network.handshakeRun login).map .client ++
          [.engineStart, .engineStop, .check 0, .engineJoin] ++
          [Network.Label.stop, .stopDisconnect, .connectionLost, .checkLost, .join].map .client) ∧
      s.client.opened = 1 ∧ s.Halted ∧
      (program login setup).Valid (fun _ _ => True) s [.engineStop, .client .stop] := by
    decide +kernel
  obtain ⟨hreach, hopened, hhalted, hengine, hclient, -⟩ := hvalid
  exact ⟨hopened, halted_stays (reach_after hreach) hhalted
    ⟨⟨hengine.1, nofun, nofun⟩, ⟨hclient.1, nofun, nofun⟩, trivial⟩⟩

end CppMiner.Program
