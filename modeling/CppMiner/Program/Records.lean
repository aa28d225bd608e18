-- SUMMARY: What the records of jobs, batches and submissions mean in every run of the program.
import CppMiner.Program.System

/-!
# Records

The histories a run records only grow (`Step.grows`), so that what a record says when
it is made stays true. `Recorded` is what the records say: a job is the one its
callback delivered, the difficulty of a batch is that of the last difficulty callback
before it was read, and every submission is an attempt of a batch that follows the
batch's job and threshold (`recorded_of_reach`).
-/

namespace CppMiner.Program

open Hash.Cryptonight (Stack)
open Miner (Engine MiningJob Setup WorkerThread Worker Published Snapshot Attempt Submission
  TriedFor difficultyToThreshold batch_ok mem_of_tried)
open Network (Login Event handleLine nextLine)

/-- The difficulty a callback sets. -/
def difficultySet : Event → Option ℚ
  | .onDifficulty d => some d
  | _ => none

/-- The difficulty of the last difficulty callback, or the one that `main` starts with. -/
def lastDifficulty (callbacks : List (ℕ × Event)) : ℚ :=
  ((callbacks.filterMap fun c => difficultySet c.2).getLast?).getD syntheticDifficulty

theorem lastDifficulty_append_none {callbacks added : List (ℕ × Event)}
    (h : ∀ c ∈ added, difficultySet c.2 = none) :
    lastDifficulty (callbacks ++ added) = lastDifficulty callbacks := by
  have hnil : added.filterMap (fun c => difficultySet c.2) = [] := List.filterMap_eq_nil_iff.mpr h
  rw [lastDifficulty, List.filterMap_append, hnil, List.append_nil, lastDifficulty]

theorem lastDifficulty_append_some (callbacks : List (ℕ × Event)) (k : ℕ) (d : ℚ) :
    lastDifficulty (callbacks ++ [(k, .onDifficulty d)]) = d := by
  simp [lastDifficulty, difficultySet]

/-- The attempt follows the job and the threshold of the batch. -/
def Tries (snapshot : Snapshot) (x : Attempt) : Prop :=
  ∃ kind, TriedFor kind snapshot.published.job (difficultyToThreshold snapshot.difficulty)
    x.plan.nonce x

namespace State

variable {login : Login} {setup : Setup} {s s' : State} {l : Label}

/-! ## The histories grow -/

structure Grows (s s' : State) : Prop where
  callbacks : s.client.callbacks <+: s'.client.callbacks
  published : s.engine.published ≤ s'.engine.published
  batches : s.engine.batches <+: s'.engine.batches
  submissions : s.engine.submissions <+: s'.engine.submissions

theorem Grows.of_eq (hcallbacks : s'.client.callbacks = s.client.callbacks)
    (hpublished : s'.engine.published = s.engine.published)
    (hbatches : s'.engine.batches = s.engine.batches)
    (hsubmissions : s'.engine.submissions = s.engine.submissions) : Grows s s' :=
  ⟨by rw [hcallbacks], by rw [hpublished], by rw [hbatches], by rw [hsubmissions]⟩

/-- Only a line invokes callbacks. -/
theorem callbacks_next {c : Network.State} {k : Network.Label} (hb : c.Basic login)
    (he : c.Enabled login k) (hk : k ≠ .line) : (c.next login k).callbacks = c.callbacks := by
  have hstep := Network.State.next_session hb he
  generalize c.next login k = c' at hstep
  cases hstep with
  | line line rest hnet hline hs => exact absurd rfl hk
  | connected hnet hs => rw [hs]; rfl
  | disconnected k hclient hsocket hopened hhandled hcallbacks => exact hcallbacks
  | stands k hclient hsocket hopened hhandled hcallbacks => exact hcallbacks

theorem prefix_handle (c : Network.State) (line rest : Bytes) :
    c.callbacks <+: (c.handle line rest).callbacks := List.prefix_append _ _

theorem Step.grows (hb : s.client.Basic login) (h : Step login setup s l s') : Grows s s' := by
  cases h with
  | client l he hline hsubmit => exact .of_eq (callbacks_next hb he hline) rfl rfl rfl
  | reported line rest he hline hevents =>
    exact ⟨prefix_handle _ _ _, le_rfl, List.prefix_rfl, List.prefix_rfl⟩
  | job line rest job he hline hevents =>
    exact ⟨prefix_handle _ _ _, Nat.le_succ _, List.prefix_rfl, List.prefix_rfl⟩
  | difficulty line rest d he hline hevents =>
    exact ⟨prefix_handle _ _ _, le_rfl, List.prefix_rfl, List.prefix_rfl⟩
  | engineStart hjoin => exact .of_eq rfl (by simp) (by simp) (by simp)
  | engineStop hjoin => exact .of_eq rfl (by simp) (by simp) (by simp)
  | load i stack worker p hi snapshot hsnapshot =>
    exact ⟨List.prefix_rfl, le_rfl, List.prefix_append _ _, List.prefix_rfl⟩
  | submitted i worker snapshot x left hi hfree share hx request hrequest =>
    exact ⟨List.prefix_rfl, le_rfl, List.prefix_rfl, List.prefix_append _ _⟩
  | _ => exact .of_eq rfl rfl rfl rfl

/-! ## What becomes of a worker -/

theorem workers_setWorker {e : Engine} {i j : ℕ} {t u : WorkerThread}
    (h : (e.setWorker i t).workers j = u) : j = i ∧ t = u ∨ j ≠ i ∧ e.workers j = u := by
  simp only [Engine.setWorker] at h
  by_cases hj : j = i
  · subst hj
    rw [Function.update_self] at h
    exact .inl ⟨rfl, h⟩
  · rw [Function.update_of_ne hj] at h
    exact .inr ⟨hj, h⟩

/-- The batch that `load` would begin. -/
def beginning (s : State) (i : ℕ) (stack : ℕ → Stack) : Option (Snapshot × WorkerThread) :=
  match s.engine.workers i with
  | .holding worker p =>
    let snapshot : Snapshot := ⟨i, p, s.engine.difficulty, s.client.callbacks.length⟩
    some (snapshot, .begin worker snapshot stack)
  | _ => none

theorem beginning_eq_some {i : ℕ} {stack : ℕ → Stack} {snapshot : Snapshot} {t : WorkerThread}
    (h : s.beginning i stack = some (snapshot, t)) :
    ∃ worker p, s.engine.workers i = .holding worker p ∧
      snapshot = ⟨i, p, s.engine.difficulty, s.client.callbacks.length⟩ ∧
      t = .begin worker snapshot stack := by
  unfold beginning at h
  split at h
  · rename_i worker p hi
    cases h
    exact ⟨worker, p, hi, rfl, rfl⟩
  · cases h

theorem mining_of_begin {worker worker' : Worker} {snapshot snapshot' : Snapshot}
    {stack : ℕ → Stack} {left : List Attempt}
    (h : WorkerThread.begin worker snapshot stack = .mining worker' snapshot' left) :
    snapshot' = snapshot ∧ ∀ x ∈ left, Tries snapshot x := by
  unfold WorkerThread.begin at h
  split at h
  · rename_i left worker hbatch
    cases h
    exact ⟨rfl, fun x hx => ⟨_, mem_of_tried (batch_ok hbatch).attempts hx⟩⟩
  · cases h

theorem begin_ne_holding {worker worker' : Worker} {snapshot : Snapshot} {stack : ℕ → Stack}
    {p : Published} : WorkerThread.begin worker snapshot stack ≠ .holding worker' p := by
  unfold WorkerThread.begin
  split <;> nofun

/-- The batch that a worker is in. -/
def batchOf : WorkerThread → Option Snapshot
  | .mining _ b _ => some b
  | .exited | .checking _ | .fetching _ | .holding .. | .died => none

/-- No attempt that is left in a batch finds a share. -/
def Quiet : WorkerThread → Prop
  | .mining _ _ left => ∀ x ∈ left, x.submitted = none
  | _ => True

instance : (t : WorkerThread) → Decidable (Quiet t)
  | .mining _ _ left => inferInstanceAs (Decidable (∀ x ∈ left, x.submitted = none))
  | .exited | .checking _ | .fetching _ | .holding .. | .died => .isTrue trivial

/-- What a step can do to worker `i`. -/
inductive Moves (setup : Setup) (s : State) (l : Label) (i : ℕ) : WorkerThread → Prop where
  | stands : Moves setup s l i (s.engine.workers i)
  | exits : Moves setup s l i .exited
  | checks (worker : Worker) (hi : i < setup.threads ∨ s.engine.workers i ≠ .exited) :
    Moves setup s l i (.checking worker)
  | fetches (worker : Worker) (hi : s.engine.workers i = .checking worker) :
    Moves setup s l i (.fetching worker)
  | takes (worker : Worker) (p : Published) (hi : s.engine.workers i = .fetching worker)
    (hp : s.engine.jobQueue.current = some p) : Moves setup s l i (.holding worker p)
  | begins (stack : ℕ → Stack) (snapshot : Snapshot) (t : WorkerThread) (hl : l = .load i stack)
    (hbegin : s.beginning i stack = some (snapshot, t)) : Moves setup s l i t
  | continues (worker : Worker) (snapshot : Snapshot) (x : Attempt) (left : List Attempt)
    (hi : s.engine.workers i = .mining worker snapshot (x :: left)) :
    Moves setup s l i (.mining worker snapshot left)

/-- A step of one worker leaves the others alone. -/
theorem Moves.setWorker {i : ℕ} {t : WorkerThread} (h : Moves setup s l i t) (j : ℕ) :
    Moves setup s l j ((s.engine.setWorker i t).workers j) := by
  rcases workers_setWorker (e := s.engine) (i := i) (j := j) (t := t) rfl with
    ⟨rfl, heq⟩ | ⟨-, heq⟩
  · rwa [← heq]
  · rw [← heq]
    exact .stands

theorem Step.moves (h : Step login setup s l s') (j : ℕ) :
    Moves setup s l j (s'.engine.workers j) := by
  cases h with
  | engineStart hjoin =>
    simp only [Engine.start]
    split
    · exact .stands
    · by_cases hj : j < setup.threads
      · simp only [if_pos hj]
        exact .checks _ (.inl hj)
      · simp only [if_neg hj]
        exact .stands
  | engineStop hjoin => simpa using .stands
  | check i worker hi =>
    refine Moves.setWorker ?_ j
    split
    · exact .fetches worker hi
    · exact .exits
  | take i worker p hi hp => exact Moves.setWorker (.takes worker p hi hp) j
  | idle i worker hi hp => exact Moves.setWorker (.checks worker (.inr (by rw [hi]; nofun))) j
  | load i stack worker p hi snapshot hsnapshot =>
    refine Moves.setWorker (.begins stack snapshot _ rfl ?_) j
    rw [beginning, hi, hsnapshot]
  | missed i worker snapshot x left hi hfree hx =>
    exact Moves.setWorker (.continues worker snapshot x left hi) j
  | submitted i worker snapshot x left hi hfree share hx request hrequest =>
    exact Moves.setWorker (.continues worker snapshot x left hi) j
  | finish i worker snapshot hi hfree =>
    exact Moves.setWorker (.checks worker (.inr (by rw [hi]; nofun))) j
  | _ => exact .stands

/-- A worker that holds a job held it before, or has just taken the current one. -/
theorem Step.holding (h : Step login setup s l s') {j : ℕ} {worker : Worker} {p : Published}
    (hj : s'.engine.workers j = .holding worker p) :
    s.engine.workers j = .holding worker p ∨ s.engine.jobQueue.current = some p := by
  have hmoves := h.moves j
  generalize s'.engine.workers j = t at hmoves hj
  cases hmoves with
  | stands => exact .inl hj
  | takes worker p hi hp =>
    cases hj
    exact .inr hp
  | begins stack snapshot t hl hbegin =>
    obtain ⟨worker', p', -, -, rfl⟩ := beginning_eq_some hbegin
    exact absurd hj begin_ne_holding
  | _ => cases hj

/-- A worker in a batch was in it before with the same attempts left, or with one more,
or has just begun it. -/
theorem Step.mining (h : Step login setup s l s') {j : ℕ} {worker : Worker}
    {snapshot : Snapshot} {left : List Attempt}
    (hj : s'.engine.workers j = .mining worker snapshot left) :
    s.engine.workers j = .mining worker snapshot left ∨
    (∃ x, s.engine.workers j = .mining worker snapshot (x :: left)) ∨
    ∃ stack, l = .load j stack ∧
      s.beginning j stack = some (snapshot, .mining worker snapshot left) := by
  have hmoves := h.moves j
  generalize s'.engine.workers j = t at hmoves hj
  cases hmoves with
  | stands => exact .inl hj
  | begins stack snapshot' t hl hbegin =>
    obtain ⟨worker', p', -, -, ht⟩ := beginning_eq_some hbegin
    rw [ht] at hj
    obtain ⟨rfl, -⟩ := mining_of_begin hj
    rw [ht, hj] at hbegin
    exact .inr (.inr ⟨stack, hl, hbegin⟩)
  | continues worker snapshot x left hi =>
    cases hj
    exact .inr (.inl ⟨x, hi⟩)
  | _ => cases hj

/-- Where every batch is one that `Q` holds of or has no share to find any more, a step
that keeps `Q` and begins no other batch leaves it so. -/
theorem Step.mining_quiet {Q Q' : Snapshot → Prop} (h : Step login setup s l s')
    (hold : ∀ i worker b left, s.engine.workers i = .mining worker b left →
      Q b ∨ ∀ x ∈ left, x.submitted = none)
    (hkeeps : ∀ b, Q b → Q' b)
    (hbegins : ∀ i stack b t, l = .load i stack → s.beginning i stack = some (b, t) →
      ¬ Q b → Quiet t)
    {i : ℕ} {worker : Worker} {b : Snapshot} {left : List Attempt}
    (hi : s'.engine.workers i = .mining worker b left) :
    Q' b ∨ ∀ x ∈ left, x.submitted = none := by
  refine Or.imp_left (hkeeps b) ?_
  rcases h.mining hi with hi | ⟨x, hi⟩ | ⟨stack, hl, hbegin⟩
  · exact hold i worker b left hi
  · exact (hold i worker b (x :: left) hi).imp_right fun hquiet y hy =>
      hquiet y (List.mem_cons_of_mem _ hy)
  · by_cases hQ : Q b
    · exact .inl hQ
    · exact .inr (hbegins i stack b _ hl hbegin hQ)

/-! ## What becomes of the queue and the difficulty -/

/-- The step publishes a job: it handles a notification. -/
structure Publishes (s s' : State) (l : Label) (job : MiningJob) : Prop where
  label : l = .client .line
  line : ∃ line rest, nextLine s.client.lineBuffer = some (line, rest) ∧
    (handleLine s.client.client line).2 = [.onJob job] ∧
    s' = { client := s.client.handle line rest
           engine := s.engine.updateJob (received s.client line job) }

theorem Step.publishes (h : Step login setup s l s') :
    (s'.engine.jobQueue = s.engine.jobQueue ∧ s'.engine.published = s.engine.published ∧
      s'.engine.cleanFrom = s.engine.cleanFrom) ∨ ∃ job, Publishes s s' l job := by
  cases h with
  | job line rest job he hline hevents =>
    exact .inr ⟨job, rfl, line, rest, hline, hevents, rfl⟩
  | engineStart hjoin => exact .inl (by simp)
  | engineStop hjoin => exact .inl (by simp)
  | _ => exact .inl ⟨rfl, rfl, rfl⟩

theorem callbacks_handle {c : Network.State} {line : Bytes} {events : List Event}
    (h : (handleLine c.client line).2 = events) (rest : Bytes) :
    (c.handle line rest).callbacks = c.callbacks ++ events.map fun e => (c.connection, e) := by
  rw [← h]
  rfl

/-- The engine has the difficulty that was set last. -/
theorem Step.difficulty_eq (hb : s.client.Basic login) (h : Step login setup s l s')
    (hs : s.engine.difficulty = setup.stored (lastDifficulty s.client.callbacks)) :
    s'.engine.difficulty = setup.stored (lastDifficulty s'.client.callbacks) := by
  cases h with
  | client l he hline hsubmit =>
    simp only [callbacks_next hb he hline]
    exact hs
  | reported line rest he hline hevents =>
    rw [callbacks_handle rfl, lastDifficulty_append_none]
    · exact hs
    · intro c hc
      obtain ⟨e, hmem, rfl⟩ := List.mem_map.mp hc
      have hsubmit := hevents e hmem
      cases e <;> simp [Event.isSubmit, difficultySet] at hsubmit ⊢
  | job line rest job he hline hevents =>
    rw [callbacks_handle hevents, lastDifficulty_append_none (by simp [difficultySet])]
    exact hs
  | difficulty line rest d he hline hevents =>
    rw [callbacks_handle hevents, List.map_singleton, lastDifficulty_append_some]
    rfl
  | engineStart hjoin => simpa using hs
  | engineStop hjoin => simpa using hs
  | _ => exact hs

/-! ## What the records say -/

/-- The record of a job that was published. -/
structure WasPublished (s : State) (p : Published) : Prop where
  ordinal : p.ordinal ≤ s.engine.published
  version : p.version = UInt64.ofNat p.ordinal
  /-- A job of the pool is the one that its callback delivered. -/
  delivered : ∀ k, p.connection = some k →
    s.client.callbacks[p.callbacks]? = some (k, .onJob p.job)
  standby : p.connection = none → p.job = createSyntheticJob ∧ p.callbacks = 0
  carried : ∀ d, p.carried = some d → p.job.difficulty = d

/-- The record of a batch. -/
structure WasRead (setup : Setup) (s : State) (b : Snapshot) : Prop where
  published : s.WasPublished b.published
  /-- The job was published before the difficulty was read. -/
  callbacks : b.published.callbacks ≤ b.callbacks ∧ b.callbacks ≤ s.client.callbacks.length
  difficulty : b.difficulty = setup.stored (lastDifficulty (s.client.callbacks.take b.callbacks))

/-- The record of a submission: an attempt of a batch, with its request. -/
structure WasSubmitted (login : Login) (s : State) (sub : Submission) : Prop where
  snapshot : sub.snapshot ∈ s.engine.batches
  attempt : Tries sub.snapshot sub.attempt
  request : ∃ share requestId, sub.attempt.submitted = some share ∧
    sub.request = share.request login requestId

theorem WasPublished.callbacks_le {p : Published} (h : s.WasPublished p) :
    p.callbacks ≤ s.client.callbacks.length := by
  cases hk : p.connection with
  | none =>
    rw [(h.standby hk).2]
    exact Nat.zero_le _
  | some k => exact (List.getElem?_eq_some_iff.mp (h.delivered k hk)).1.le

theorem WasPublished.mono {p : Published} (hg : Grows s s') (h : s.WasPublished p) :
    s'.WasPublished p where
  ordinal := h.ordinal.trans hg.published
  version := h.version
  delivered k hk := by
    have hdelivered := h.delivered k hk
    obtain ⟨rest, hrest⟩ := hg.callbacks
    rw [← hrest, List.getElem?_append_left (List.getElem?_eq_some_iff.mp hdelivered).1]
    exact hdelivered
  standby := h.standby
  carried := h.carried

theorem WasRead.mono {b : Snapshot} (hg : Grows s s') (h : s.WasRead setup b) :
    s'.WasRead setup b where
  published := h.published.mono hg
  callbacks := ⟨h.callbacks.1, h.callbacks.2.trans hg.callbacks.length_le⟩
  difficulty := by
    obtain ⟨rest, hrest⟩ := hg.callbacks
    rw [← hrest, List.take_append_of_le_length h.callbacks.2]
    exact h.difficulty

theorem WasSubmitted.mono {sub : Submission} (hg : Grows s s') (h : s.WasSubmitted login sub) :
    s'.WasSubmitted login sub where
  snapshot := hg.batches.subset h.snapshot
  attempt := h.attempt
  request := h.request

/-- What is submitted is the share of the attempt, for the job of the batch. -/
theorem WasSubmitted.share {sub : Submission} (h : s.WasSubmitted login sub) :
    ∃ share requestId, sub.attempt.submitted = some share ∧
      sub.request = Network.Submit.request login requestId share ∧
      share.jobId = sub.snapshot.published.job.jobId := by
  obtain ⟨share, requestId, hsubmitted, hrequest⟩ := h.request
  obtain ⟨kind, htries⟩ := h.attempt
  obtain ⟨-, -, hshare⟩ := htries.tried.submitted_eq_some hsubmitted
  exact ⟨share, requestId, hsubmitted, hrequest, hshare ▸ htries.jobId⟩

/-- What the records say in every run. -/
structure Recorded (login : Login) (setup : Setup) (s : State) : Prop where
  current : ∃ p, s.engine.jobQueue.current = some p ∧ s.WasPublished p ∧
    p.ordinal = s.engine.published
  version : s.engine.jobQueue.version = UInt64.ofNat s.engine.published
  difficulty : s.engine.difficulty = setup.stored (lastDifficulty s.client.callbacks)
  beyond : ∀ i, setup.threads ≤ i → s.engine.workers i = .exited
  holding : ∀ i worker p, s.engine.workers i = .holding worker p → s.WasPublished p
  mining : ∀ i worker b left, s.engine.workers i = .mining worker b left →
    b ∈ s.engine.batches ∧ ∀ x ∈ left, Tries b x
  batches : ∀ b ∈ s.engine.batches, s.WasRead setup b
  submissions : ∀ sub ∈ s.engine.submissions, s.WasSubmitted login sub

/-- A worker below the thread count: the others never run. -/
theorem Recorded.lt_threads (h : s.Recorded login setup) {i : ℕ}
    (hi : s.engine.workers i ≠ .exited) : i < setup.threads := by
  by_contra hnot
  exact hi (h.beyond i (Nat.le_of_not_lt hnot))

/-- A worker that is in no batch, or in one at threshold zero, has no share to find. -/
theorem Recorded.quiet (h : s.Recorded login setup) {i : ℕ}
    (hi : (batchOf (s.engine.workers i)).all fun b => difficultyToThreshold b.difficulty = 0) :
    Quiet (s.engine.workers i) := by
  cases hw : s.engine.workers i with
  | mining worker b left =>
    rw [hw] at hi
    have hzero : difficultyToThreshold b.difficulty = 0 := of_decide_eq_true hi
    intro x hx
    obtain ⟨kind, htries⟩ := (h.mining i worker b left hw).2 x hx
    rw [htries.tried.submitted_eq, hzero, if_neg fun hbelow => absurd hbelow.1 UInt64.not_lt_zero]
  | _ => trivial

/-- The job of a notification is published with the record of its callback. -/
theorem Publishes.wasPublished {job : MiningJob} (h : Publishes s s' l job)
    (hversion : s.engine.jobQueue.version = UInt64.ofNat s.engine.published) :
    ∃ p, s'.engine.jobQueue.current = some p ∧ s'.WasPublished p ∧
      p.ordinal = s'.engine.published ∧ p.job = job := by
  obtain ⟨-, line, rest, -, hevents, rfl⟩ := h
  have hnext := Threading.JobQueue.version_publish hversion (received s.client line job)
  refine ⟨_, rfl, ⟨le_rfl, hnext, ?_, nofun, ?_⟩, rfl, rfl⟩
  · rintro k ⟨⟩
    change (s.client.handle line rest).callbacks[s.client.callbacks.length]? = _
    rw [callbacks_handle hevents]
    simp [received]
  · intro d hd
    exact Network.difficulty_of_mem (by rw [hevents]; exact List.mem_singleton_self _) hd

/-- A batch is recorded when it begins. -/
theorem Step.loaded {i : ℕ} {stack : ℕ → Stack} (h : Step login setup s (.load i stack) s') :
    ∃ b t, s.beginning i stack = some (b, t) ∧
      s'.engine = { s.engine.setWorker i t with batches := s.engine.batches ++ [b] } := by
  cases h with
  | load i stack worker p hi snapshot hsnapshot =>
    refine ⟨snapshot, .begin worker snapshot stack, ?_, rfl⟩
    rw [beginning, hi, hsnapshot]

theorem Step.batches_eq (h : Step login setup s l s') (hl : ∀ i stack, l ≠ .load i stack) :
    s'.engine.batches = s.engine.batches := by
  cases h with
  | load i stack worker p hi snapshot hsnapshot => exact absurd rfl (hl i stack)
  | engineStart hjoin => simp
  | engineStop hjoin => simp
  | _ => rfl

theorem Step.batches (h : Step login setup s l s') {b : Snapshot}
    (hb : b ∈ s'.engine.batches) :
    b ∈ s.engine.batches ∨ ∃ i stack t, l = .load i stack ∧ s.beginning i stack = some (b, t) := by
  by_cases hl : ∃ i stack, l = .load i stack
  · obtain ⟨i, stack, rfl⟩ := hl
    obtain ⟨b', t, hbegin, hengine⟩ := h.loaded
    rw [hengine] at hb
    rcases List.mem_append.mp hb with hb | hb
    · exact .inl hb
    · obtain rfl := List.mem_singleton.mp hb
      exact .inr ⟨i, stack, t, rfl, hbegin⟩
  · rw [h.batches_eq fun i stack heq => hl ⟨i, stack, heq⟩] at hb
    exact .inl hb

/-- A submission is recorded when a worker in a batch makes it. -/
theorem Step.submissions (h : Step login setup s l s') {sub : Submission}
    (hsub : sub ∈ s'.engine.submissions) :
    sub ∈ s.engine.submissions ∨ ∃ i worker left share,
      s.engine.workers i = .mining worker sub.snapshot (sub.attempt :: left) ∧
      sub.attempt.submitted = some share ∧ sub.cleanFrom = s.engine.cleanFrom ∧
      sub.request = share.request login (Network.preIncrement s.client.nextRequestId) := by
  cases h with
  | submitted i worker snapshot x left hi hfree share hx request hrequest =>
    rcases List.mem_append.mp hsub with hsub | hsub
    · exact .inl hsub
    · obtain rfl := List.mem_singleton.mp hsub
      exact .inr ⟨i, worker, left, share, hi, hx, rfl, hrequest⟩
  | engineStart hjoin => exact .inl (by simpa using hsub)
  | engineStop hjoin => exact .inl (by simpa using hsub)
  | _ => exact .inl hsub

theorem Recorded.next (hb : s.client.Basic login) (h : s.Recorded login setup)
    (hstep : Step login setup s l s') : s'.Recorded login setup := by
  have hg := hstep.grows hb
  refine ⟨?_, ?_, hstep.difficulty_eq hb h.difficulty, ?_, ?_, ?_, ?_, ?_⟩
  · rcases hstep.publishes with ⟨hqueue, hpublished, -⟩ | ⟨job, hjob⟩
    · obtain ⟨p, hp, hof, hordinal⟩ := h.current
      exact ⟨p, by rw [hqueue, hp], hof.mono hg, by rw [hpublished, hordinal]⟩
    · obtain ⟨p, hp, hof, hordinal, -⟩ := hjob.wasPublished h.version
      exact ⟨p, hp, hof, hordinal⟩
  · rcases hstep.publishes with ⟨hqueue, hpublished, -⟩ | ⟨job, -, line, rest, -, -, rfl⟩
    · rw [hqueue, hpublished, h.version]
    · exact Threading.JobQueue.version_publish h.version _
  · intro i hi
    have hmoves := hstep.moves i
    have hexited := h.beyond i hi
    generalize s'.engine.workers i = t at hmoves
    cases hmoves with
    | stands => exact hexited
    | exits => rfl
    | checks worker hj => exact absurd (hj.resolve_right (not_not.mpr hexited)) (not_lt.mpr hi)
    | begins stack snapshot t hl hbegin =>
      obtain ⟨worker, p, hholding, -⟩ := beginning_eq_some hbegin
      exact absurd (hexited.symm.trans hholding) nofun
    | fetches worker hj => exact absurd (hexited.symm.trans hj) nofun
    | takes worker p hj hp => exact absurd (hexited.symm.trans hj) nofun
    | continues worker snapshot x left hj => exact absurd (hexited.symm.trans hj) nofun
  · intro i worker p hi
    rcases hstep.holding hi with hi | hp
    · exact (h.holding i worker p hi).mono hg
    · obtain ⟨q, hq, hof, -⟩ := h.current
      rw [hp] at hq
      cases hq
      exact hof.mono hg
  -- a batch goes on with the attempts it began with, or is recorded as it begins
  · intro i worker b left hi
    rcases hstep.mining hi with hi | ⟨x, hi⟩ | ⟨stack, hl, hbegin⟩
    · obtain ⟨hmem, htries⟩ := h.mining i worker b left hi
      exact ⟨hg.batches.subset hmem, htries⟩
    · obtain ⟨hmem, htries⟩ := h.mining i worker b (x :: left) hi
      exact ⟨hg.batches.subset hmem, fun y hy => htries y (List.mem_cons_of_mem _ hy)⟩
    · subst hl
      obtain ⟨worker', p, -, -, hbatch⟩ := beginning_eq_some hbegin
      obtain ⟨b', t, hbegin', hengine⟩ := hstep.loaded
      rw [hbegin] at hbegin'
      cases hbegin'
      refine ⟨?_, (mining_of_begin hbatch.symm).2⟩
      rw [hengine]
      exact List.mem_append_right _ (List.mem_singleton_self _)
  -- the difficulty is read after the job was taken, and may be newer than it
  · intro b hmem
    rcases hstep.batches hmem with hmem | ⟨i, stack, t, -, hbegin⟩
    · exact (h.batches b hmem).mono hg
    · obtain ⟨worker, p, hi, rfl, -⟩ := beginning_eq_some hbegin
      have hof := h.holding i worker p hi
      exact WasRead.mono hg
        { published := hof
          callbacks := ⟨hof.callbacks_le, le_rfl⟩
          difficulty := by rw [List.take_length]; exact h.difficulty }
  · intro sub hsub
    rcases hstep.submissions hsub with hsub | ⟨i, worker, left, share, hi, hx, -, hrequest⟩
    · exact (h.submissions sub hsub).mono hg
    · obtain ⟨hmem, htries⟩ := h.mining i worker _ _ hi
      exact WasSubmitted.mono hg
        ⟨hmem, htries _ (List.mem_cons_self ..), share, _, hx, hrequest⟩

end State

/-- The records hold what they say in every run. -/
theorem recorded_of_reach {login : Login} {setup : Setup} {P : State → Label → Prop} {s : State}
    (h : (program login setup).Reach P s) : s.Recorded login setup := by
  refine invariant_of (fun s hs => Network.basic_of_reach (client_of_reach hs)) ?_
    (fun _ _ _ hb hr hstep _ => hr.next hb hstep) h
  have hversion : (init setup).engine.jobQueue.version = UInt64.ofNat 1 :=
    Threading.JobQueue.version_publish rfl _
  have hstandby : (init setup).WasPublished
      { job := createSyntheticJob, ordinal := 1, version := 0 + 1 } :=
    ⟨le_rfl, hversion, nofun, fun _ => ⟨rfl, rfl⟩, nofun⟩
  exact
    { current := ⟨_, rfl, hstandby, rfl⟩
      version := hversion
      difficulty := rfl
      beyond := fun _ _ => rfl
      holding := nofun
      mining := nofun
      batches := fun _ hb => absurd hb List.not_mem_nil
      submissions := fun _ hsub => absurd hsub List.not_mem_nil }

end CppMiner.Program
