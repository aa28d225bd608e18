-- SUMMARY: A value behind a readers-writer lock is linearizable, its lock-free reads included.
import Mathlib.Data.Finset.Basic
import CppMiner.Lib.Linearizable

/-!
# Monitors

Threads share a value behind a lock that one of them takes alone, to write, or several of
them together, to read. Under the lock a thread makes one access after another, and other
threads move in between. Some operations read the value without the lock, in one access.

A write under the lock is either one that the reads without the lock do not notice, or
the last of its operation, which commits it. An operation then takes effect when it
commits, or, if it only reads, when its reader takes the lock: the monitor is linearizable
to the object whose operations are one step each.
-/

namespace Monitor

open TransitionSystem Linearizable

variable {ι κ α β : Type*}

/-! ## Methods -/

/-- How an operation is carried out. -/
inductive Method (α β : Type*) where
  /-- With the lock taken alone. -/
  | unique (before : List (α → α)) (commit : α → α) (answer : β)
  /-- With the lock shared. A read adds what it sees to the copy made so far. -/
  | shared (start : β) (reads : List (α → β → β))
  /-- Without the lock. -/
  | peek (read : α → β)

/-- What one write after another makes of a value. -/
def writeAll (writes : List (α → α)) (a : α) : α := writes.foldl (fun a w => w a) a

/-- The copy that one read after another makes of a value. -/
def readAll (a : α) (reads : List (α → β → β)) (copy : β) : β :=
  reads.foldl (fun copy r => r a copy) copy

@[simp] theorem readAll_nil (a : α) (copy : β) : readAll a [] copy = copy := rfl

@[simp] theorem readAll_cons (a : α) (r : α → β → β) (reads : List (α → β → β)) (copy : β) :
    readAll a (r :: reads) copy = readAll a reads (r a copy) := rfl

theorem writeAll_append_singleton (writes : List (α → α)) (w : α → α) (a : α) :
    writeAll (writes ++ [w]) a = w (writeAll writes a) := by
  rw [writeAll, List.foldl_append]
  rfl

def Method.effect : Method α β → α → α
  | .unique before commit _, a => commit (writeAll before a)
  | .shared _ _, a | .peek _, a => a

def Method.answer : Method α β → α → β
  | .unique _ _ answer, _ => answer
  | .shared start reads, a => readAll a reads start
  | .peek read, a => read a

/-- The sequential object of the methods. -/
def object (init : α) (method : κ → Method α β) : Object κ α β where
  init := init
  effect k := (method k).effect
  answer k := (method k).answer

/-- The reads without the lock do not notice the writes before a commit. -/
def Hidden (method : κ → Method α β) : Prop :=
  ∀ k before commit answer, method k = .unique before commit answer →
    ∀ w ∈ before, ∀ k' read, method k' = .peek read → ∀ a, read (w a) = read a

/-! ## States and steps -/

/-- Where a thread is. -/
inductive Thread (κ α β : Type*) where
  | idle
  /-- About to take the lock, or to read without it. -/
  | called (k : κ)
  | writing (left : List (α → α)) (commit : α → α) (answer : β)
  /-- Holds the lock, after the commit. -/
  | written (answer : β)
  | reading (copy : β) (left : List (α → β → β))
  | answered (b : β)

/-- The thread holds the lock alone. -/
def Thread.Owns (w : Thread κ α β) : Prop := w matches .writing _ _ _ | .written _

/-- The thread shares the lock. -/
def Thread.Shares (w : Thread κ α β) : Prop := w matches .reading _ _

structure State (ι κ α β : Type*) where
  value : α
  thread : ι → Thread κ α β := fun _ => .idle
  owner : Option ι := none
  sharers : Finset ι := ∅

inductive Label (ι κ β : Type*) where
  | call (i : ι) (k : κ)
  | lock (i : ι)
  | access (i : ι)
  | unlock (i : ι)
  | returned (i : ι) (b : β)

def Label.shown : Label ι κ β → Option (Event ι κ β)
  | .call i k => some (.call i k)
  | .lock _ | .access _ | .unlock _ => none
  | .returned i b => some (.returned i b)

/-- Only a call is seen as one. -/
theorem mem_of_shown {ls : List (Label ι κ β)} {i : ι} {k : κ}
    (h : Event.call i k ∈ ls.filterMap Label.shown) : .call i k ∈ ls := by
  obtain ⟨l, hl, hcall⟩ := List.mem_filterMap.mp h
  cases l with
  | call j k' =>
    cases hcall
    exact hl
  | lock | access | unlock | returned => cases hcall

variable [DecidableEq ι]

def State.setThread (s : State ι κ α β) (i : ι) (w : Thread κ α β) : State ι κ α β :=
  { s with thread := Function.update s.thread i w }

namespace State

variable (method : κ → Method α β) (s : State ι κ α β)

def lock (i : ι) : Option (State ι κ α β) :=
  match s.thread i with
  | .called k =>
    match method k with
    | .unique before commit answer =>
      if s.owner = none ∧ s.sharers = ∅ then
        some { s.setThread i (.writing before commit answer) with owner := some i }
      else none
    | .shared start reads =>
      if s.owner = none then
        some { s.setThread i (.reading start reads) with sharers := insert i s.sharers }
      else none
    | .peek _ => none
  | _ => none

def access (i : ι) : Option (State ι κ α β) :=
  match s.thread i with
  | .called k =>
    match method k with
    | .peek read => some (s.setThread i (.answered (read s.value)))
    | _ => none
  | .writing (w :: left) commit answer =>
    some { s.setThread i (.writing left commit answer) with value := w s.value }
  | .writing [] commit answer =>
    some { s.setThread i (.written answer) with value := commit s.value }
  | .reading copy (r :: left) => some (s.setThread i (.reading (r s.value copy) left))
  | _ => none

def unlock (i : ι) : Option (State ι κ α β) :=
  match s.thread i with
  | .written answer => some { s.setThread i (.answered answer) with owner := none }
  | .reading copy [] =>
    some { s.setThread i (.answered copy) with sharers := s.sharers.erase i }
  | _ => none

def step [DecidableEq β] : Label ι κ β → Option (State ι κ α β)
  | .call i k =>
    match s.thread i with
    | .idle => some (s.setThread i (.called k))
    | _ => none
  | .lock i => s.lock method i
  | .access i => s.access method i
  | .unlock i => s.unlock i
  | .returned i b =>
    match s.thread i with
    | .answered b' => if b = b' then some (s.setThread i .idle) else none
    | _ => none

end State

/-- The monitor, from a value on that no thread has touched. -/
def monitor (ι : Type*) [DecidableEq ι] [DecidableEq β] (init : α) (method : κ → Method α β) :
    TransitionSystem (State ι κ α β) (Label ι κ β) :=
  .ofStep { value := init } fun s => s.step method

instance [DecidableEq β] (init : α) (method : κ → Method α β) (s : State ι κ α β)
    (l : Label ι κ β) : Decidable ((monitor ι init method).Enabled s l) :=
  inferInstanceAs (Decidable ((TransitionSystem.ofStep _ _).Enabled s l))

/-! ## What a step can do -/

variable {method : κ → Method α β} {s s' : State ι κ α β} {l : Label ι κ β}

/-- The steps, each with what it finds and what it leaves. -/
inductive Step (method : κ → Method α β) (s : State ι κ α β) :
    Label ι κ β → State ι κ α β → Prop where
  | call (i : ι) (k : κ) (h : s.thread i = .idle) : Step method s (.call i k)
    (s.setThread i (.called k))
  | lockAlone (i : ι) (k : κ) (before : List (α → α)) (commit : α → α) (answer : β)
    (h : s.thread i = .called k) (hk : method k = .unique before commit answer)
    (howner : s.owner = none) (hsharers : s.sharers = ∅) : Step method s (.lock i)
      { s.setThread i (.writing before commit answer) with owner := some i }
  | lockShared (i : ι) (k : κ) (start : β) (reads : List (α → β → β))
    (h : s.thread i = .called k) (hk : method k = .shared start reads)
    (howner : s.owner = none) : Step method s (.lock i)
      { s.setThread i (.reading start reads) with sharers := insert i s.sharers }
  | peek (i : ι) (k : κ) (read : α → β) (h : s.thread i = .called k)
    (hk : method k = .peek read) : Step method s (.access i)
      (s.setThread i (.answered (read s.value)))
  | write (i : ι) (w : α → α) (left : List (α → α)) (commit : α → α) (answer : β)
    (h : s.thread i = .writing (w :: left) commit answer) : Step method s (.access i)
      { s.setThread i (.writing left commit answer) with value := w s.value }
  | commit (i : ι) (commit : α → α) (answer : β) (h : s.thread i = .writing [] commit answer) :
    Step method s (.access i) { s.setThread i (.written answer) with value := commit s.value }
  | read (i : ι) (copy : β) (r : α → β → β) (left : List (α → β → β))
    (h : s.thread i = .reading copy (r :: left)) : Step method s (.access i)
      (s.setThread i (.reading (r s.value copy) left))
  | unlockAlone (i : ι) (answer : β) (h : s.thread i = .written answer) :
    Step method s (.unlock i) { s.setThread i (.answered answer) with owner := none }
  | unlockShared (i : ι) (copy : β) (h : s.thread i = .reading copy []) :
    Step method s (.unlock i)
      { s.setThread i (.answered copy) with sharers := s.sharers.erase i }
  | returned (i : ι) (b : β) (h : s.thread i = .answered b) : Step method s (.returned i b)
    (s.setThread i .idle)

theorem step_lock {i : ι} (h : s.lock method i = some s') : Step method s (.lock i) s' := by
  unfold State.lock at h
  split at h
  · rename_i k hi
    split at h
    · rename_i before commit answer hk
      split at h
      · rename_i hfree
        cases h
        exact .lockAlone i k before commit answer hi hk hfree.1 hfree.2
      · cases h
    · rename_i start reads hk
      split at h
      · rename_i hfree
        cases h
        exact .lockShared i k start reads hi hk hfree
      · cases h
    · cases h
  · cases h

theorem step_access {i : ι} (h : s.access method i = some s') :
    Step method s (.access i) s' := by
  unfold State.access at h
  split at h
  · rename_i k hi
    split at h
    · rename_i read hk
      cases h
      exact .peek i k read hi hk
    · cases h
  · rename_i w left commit answer hi
    cases h
    exact .write i w left commit answer hi
  · rename_i commit answer hi
    cases h
    exact .commit i commit answer hi
  · rename_i copy r left hi
    cases h
    exact .read i copy r left hi
  · cases h

theorem step_unlock {i : ι} (h : s.unlock i = some s') : Step method s (.unlock i) s' := by
  unfold State.unlock at h
  split at h
  · rename_i answer hi
    cases h
    exact .unlockAlone i answer hi
  · rename_i copy hi
    cases h
    exact .unlockShared i copy hi
  · cases h

theorem step_cases [DecidableEq β] (h : s.step method l = some s') : Step method s l s' := by
  cases l with
  | call i k =>
    simp only [State.step] at h
    split at h
    · rename_i hi
      cases h
      exact .call i k hi
    · cases h
  | lock i => exact step_lock h
  | access i => exact step_access h
  | unlock i => exact step_unlock h
  | returned i b =>
    simp only [State.step] at h
    split at h
    · rename_i b' hi
      split at h
      · rename_i hb
        cases h
        exact .returned i b (hb ▸ hi)
      · cases h
    · cases h

/-! ## The simulation -/

/-- How far a thread of the monitor is, and the same thread of the atomic object, when the
values are `a` and `v`. -/
inductive Follows (method : κ → Method α β) (a v : α) :
    Thread κ α β → Linearizable.Thread κ β → Prop where
  | idle : Follows method a v .idle .idle
  | called (k : κ) : Follows method a v (.called k) (.called k)
  | writing (k : κ) (before left : List (α → α)) (commit : α → α) (answer : β)
    (hk : method k = .unique (before ++ left) commit answer) (hvalue : a = writeAll before v) :
    Follows method a v (.writing left commit answer) (.called k)
  | written (answer : β) (hvalue : a = v) :
    Follows method a v (.written answer) (.answered answer)
  | reading (copy : β) (left : List (α → β → β)) (hvalue : a = v) :
    Follows method a v (.reading copy left) (.answered (readAll a left copy))
  | answered (b : β) : Follows method a v (.answered b) (.answered b)

/-- A thread that does not hold the lock follows whatever the values are. -/
theorem Follows.of_free {a v a' v' : α} {w : Thread κ α β} {w' : Linearizable.Thread κ β}
    (h : Follows method a v w w') (howns : ¬ w.Owns) (hshares : ¬ w.Shares) :
    Follows method a' v' w w' := by
  cases h with
  | idle => exact .idle
  | called k => exact .called k
  | answered b => exact .answered b
  | writing k before left commit answer hk hvalue => exact absurd rfl howns
  | written answer hvalue => exact absurd rfl howns
  | reading copy left hvalue => exact absurd rfl hshares

theorem Follows.eq_idle {a v : α} {w' : Linearizable.Thread κ β}
    (h : Follows method a v .idle w') : w' = .idle := by
  cases h
  rfl

theorem Follows.eq_called {a v : α} {k : κ} {w' : Linearizable.Thread κ β}
    (h : Follows method a v (.called k) w') : w' = .called k := by
  cases h
  rfl

theorem Follows.eq_answered {a v : α} {b : β} {w' : Linearizable.Thread κ β}
    (h : Follows method a v (.answered b) w') : w' = .answered b := by
  cases h
  rfl

theorem Follows.of_writing {a v : α} {left : List (α → α)} {commit : α → α} {answer : β}
    {w' : Linearizable.Thread κ β} (h : Follows method a v (.writing left commit answer) w') :
    ∃ k before, w' = .called k ∧ method k = .unique (before ++ left) commit answer ∧
      a = writeAll before v := by
  cases h with
  | writing k before left commit answer hk hvalue => exact ⟨k, before, rfl, hk, hvalue⟩

theorem Follows.of_written {a v : α} {answer : β} {w' : Linearizable.Thread κ β}
    (h : Follows method a v (.written answer) w') : w' = .answered answer ∧ a = v := by
  cases h with
  | written answer hvalue => exact ⟨rfl, hvalue⟩

theorem Follows.of_reading {a v : α} {copy : β} {left : List (α → β → β)}
    {w' : Linearizable.Thread κ β} (h : Follows method a v (.reading copy left) w') :
    w' = .answered (readAll a left copy) ∧ a = v := by
  cases h with
  | reading copy left hvalue => exact ⟨rfl, hvalue⟩

/-- The monitor and the atomic object, side by side. -/
structure Simulates (init : α) (method : κ → Method α β) (s : State ι κ α β)
    (t : Linearizable.State ι κ β) : Prop where
  owner : ∀ i, s.owner = some i ↔ (s.thread i).Owns
  sharers : ∀ i, i ∈ s.sharers ↔ (s.thread i).Shares
  exclusive : s.owner ≠ none → s.sharers = ∅
  /-- While nobody holds the lock alone the values are the same. -/
  value : s.owner = none → s.value = (object init method).value t.performed
  peeks : ∀ k read, method k = .peek read →
    read s.value = read ((object init method).value t.performed)
  thread : ∀ i, Follows method s.value ((object init method).value t.performed) (s.thread i)
    (t.thread i)

variable {init : α} {t : Linearizable.State ι κ β}

omit [DecidableEq ι] in
/-- The owner is the only thread that holds the lock. -/
theorem Simulates.alone (h : Simulates init method s t) {i j : ι} (hi : (s.thread i).Owns)
    (hj : j ≠ i) : ¬ (s.thread j).Owns ∧ ¬ (s.thread j).Shares := by
  have howner := (h.owner i).mpr hi
  refine ⟨fun howns => hj ?_, fun hshares => ?_⟩
  · exact Option.some.inj (((h.owner j).mpr howns).symm.trans howner)
  · have hmem := (h.sharers j).mpr hshares
    rw [h.exclusive (by simp [howner])] at hmem
    exact Finset.notMem_empty j hmem

omit [DecidableEq ι] in
/-- A lock that is not owned has no owner among the threads. -/
theorem Simulates.not_owns (h : Simulates init method s t) (howner : s.owner = none) (i : ι) :
    ¬ (s.thread i).Owns := by
  rw [← h.owner i, howner]
  rintro ⟨⟩

theorem follows_update {a v : α} {i : ι} {w : Thread κ α β} {w' : Linearizable.Thread κ β}
    (hself : Follows method a v w w')
    (hother : ∀ j, j ≠ i → Follows method a v (s.thread j) (t.thread j)) (j : ι) :
    Follows method a v (Function.update s.thread i w j) (Function.update t.thread i w' j) := by
  by_cases hj : j = i
  · subst hj
    simpa only [Function.update_self] using hself
  · simpa only [Function.update_of_ne hj] using hother j hj

/-- A thread moves, and neither the lock nor the values change. -/
theorem Simulates.move (h : Simulates init method s t) {s' : State ι κ α β}
    {t' : Linearizable.State ι κ β} {i : ι} {w : Thread κ α β} {w' : Linearizable.Thread κ β}
    (hs : s' = s.setThread i w) (ht : t'.thread = Function.update t.thread i w')
    (hvalue : (object init method).value t'.performed = (object init method).value t.performed)
    (howns : w.Owns ↔ (s.thread i).Owns) (hshares : w.Shares ↔ (s.thread i).Shares)
    (hself : Follows method s.value ((object init method).value t.performed) w w') :
    Simulates init method s' t' := by
  subst hs
  refine ⟨?_, ?_, h.exclusive, ?_, ?_, ?_⟩
  · exact (Function.forall_update_iff s.thread fun j w => s.owner = some j ↔ w.Owns).mpr
      ⟨(h.owner i).trans howns.symm, fun j _ => h.owner j⟩
  · exact (Function.forall_update_iff s.thread fun j w => j ∈ s.sharers ↔ w.Shares).mpr
      ⟨(h.sharers i).trans hshares.symm, fun j _ => h.sharers j⟩
  · rw [hvalue]
    exact h.value
  · rw [hvalue]
    exact h.peeks
  · rw [hvalue, ht]
    exact follows_update hself fun j _ => h.thread j

/-- The atomic object answers a step of the monitor that leads to `s'`. -/
def Answers (init : α) (method : κ → Method α β) (t : Linearizable.State ι κ β)
    (l : Label ι κ β) (s' : State ι κ α β) : Prop :=
  ∃ ms, ((object init method).atomic ι).IsRun t ms ∧
    ms.filterMap Linearizable.Label.shown = l.shown.toList ∧
    Simulates init method s' (((object init method).atomic ι).exec t ms)

theorem Answers.silent (hl : l.shown = none) (h : Simulates init method s' t) :
    Answers init method t l s' :=
  ⟨[], trivial, by rw [hl]; rfl, h⟩

theorem Answers.step {t' : Linearizable.State ι κ β} {m : Linearizable.Label ι κ β}
    (hstep : (object init method).Step t m t') (hm : m.shown = l.shown)
    (h : Simulates init method s' t') : Answers init method t l s' := by
  refine ⟨[m], hstep.isRun.1, ?_, ?_⟩
  · rw [List.filterMap_cons, hm]
    cases l.shown <;> rfl
  · rw [hstep.isRun.2]
    exact h

theorem Simulates.lockAlone (h : Simulates init method s t) {i : ι} {k : κ}
    {before : List (α → α)} {commit : α → α} {answer : β} (hi : s.thread i = .called k)
    (hk : method k = .unique before commit answer) (howner : s.owner = none)
    (hsharers : s.sharers = ∅) : Simulates init method
      { s.setThread i (.writing before commit answer) with owner := some i } t := by
  have hfollows := h.thread i
  rw [hi] at hfollows
  have ht : t.thread = Function.update t.thread i (.called k) := by
    rw [← hfollows.eq_called, Function.update_eq_self]
  refine ⟨?_, ?_, fun _ => hsharers, by rintro ⟨⟩, h.peeks, ?_⟩
  · refine (Function.forall_update_iff s.thread fun j w => some i = some j ↔ w.Owns).mpr
      ⟨by simp [Thread.Owns], fun j hj => ?_⟩
    simp only [Option.some.injEq, Ne.symm hj, false_iff]
    exact h.not_owns howner j
  · refine (Function.forall_update_iff s.thread fun j w => j ∈ s.sharers ↔ w.Shares).mpr
      ⟨by simp [Thread.Shares, hsharers], fun j _ => h.sharers j⟩
  · rw [ht]
    exact follows_update (.writing k [] before commit answer hk (h.value howner))
      fun j _ => h.thread j

theorem Simulates.lockShared (h : Simulates init method s t) {i : ι} {k : κ} {start : β}
    {reads : List (α → β → β)} (hi : s.thread i = .called k)
    (hk : method k = .shared start reads) (howner : s.owner = none) :
    Answers init method t (.lock i)
      { s.setThread i (.reading start reads) with sharers := insert i s.sharers } := by
  have hfollows := h.thread i
  rw [hi] at hfollows
  have hvalue := h.value howner
  -- a reading operation takes effect where it locks
  refine .step (.perform i k hfollows.eq_called) rfl ?_
  -- the answer is that of the value the readers see, which no one writes meanwhile
  have hanswer : (object init method).answer k ((object init method).value t.performed) =
      readAll s.value reads start := by
    rw [hvalue]
    simp only [object, hk, Method.answer]
  have hsame : (object init method).value (t.performed ++ [(i, k)]) =
      (object init method).value t.performed := by
    rw [Object.value_append_singleton]
    simp only [object, hk, Method.effect]
  rw [hanswer]
  refine ⟨?_, ?_, fun hne => absurd howner hne, ?_, ?_, ?_⟩
  · refine (Function.forall_update_iff s.thread fun j w => s.owner = some j ↔ w.Owns).mpr
      ⟨by simp [Thread.Owns, howner], fun j _ => h.owner j⟩
  · refine (Function.forall_update_iff s.thread fun j w => j ∈ insert i s.sharers ↔ w.Shares).mpr
      ⟨by simp [Thread.Shares], fun j hj => ?_⟩
    rw [Finset.mem_insert]
    exact ⟨fun hmem => (h.sharers j).mp (hmem.resolve_left hj), fun hw => .inr ((h.sharers j).mpr hw)⟩
  · rw [hsame]
    exact h.value
  · rw [hsame]
    exact h.peeks
  · rw [hsame]
    exact follows_update (.reading start reads hvalue) fun j _ => h.thread j

theorem Simulates.write (hhidden : Hidden method) (h : Simulates init method s t) {i : ι}
    {w : α → α} {left : List (α → α)} {commit : α → α} {answer : β}
    (hi : s.thread i = .writing (w :: left) commit answer) : Simulates init method
      { s.setThread i (.writing left commit answer) with value := w s.value } t := by
  have hfollows := h.thread i
  rw [hi] at hfollows
  obtain ⟨k, before, hti, hk, hvalue⟩ := hfollows.of_writing
  have ht : t.thread = Function.update t.thread i (.called k) := by
    rw [← hti, Function.update_eq_self]
  have howns : (s.thread i).Owns := by
    rw [hi]
    rfl
  have howner := (h.owner i).mpr howns
  refine ⟨?_, ?_, h.exclusive, fun hnone => ?_, fun k' read hk' => ?_, ?_⟩
  · exact (Function.forall_update_iff s.thread fun j w => s.owner = some j ↔ w.Owns).mpr
      ⟨by simp [Thread.Owns, howner], fun j _ => h.owner j⟩
  · refine (Function.forall_update_iff s.thread fun j w => j ∈ s.sharers ↔ w.Shares).mpr
      ⟨?_, fun j _ => h.sharers j⟩
    rw [h.exclusive (by simp [howner])]
    simp [Thread.Shares]
  · rw [show s.owner = none from hnone] at howner
    cases howner
  · rw [← h.peeks k' read hk']
    -- the writes before the commit are hidden from the reads without a lock
    exact hhidden k _ commit answer hk w (by simp) k' read hk' s.value
  · rw [ht]
    refine follows_update (.writing k (before ++ [w]) left commit answer ?_ ?_) fun j hj => ?_
    · rw [hk, List.append_assoc]
      rfl
    · rw [writeAll_append_singleton, ← hvalue]
    · obtain ⟨hfree, hfree'⟩ := h.alone howns hj
      exact (h.thread j).of_free hfree hfree'

theorem Simulates.commit (h : Simulates init method s t) {i : ι} {commit : α → α} {answer : β}
    (hi : s.thread i = .writing [] commit answer) : Answers init method t (.access i)
      { s.setThread i (.written answer) with value := commit s.value } := by
  have hfollows := h.thread i
  rw [hi] at hfollows
  obtain ⟨k, before, hti, hk, hvalue⟩ := hfollows.of_writing
  rw [List.append_nil] at hk
  have howns : (s.thread i).Owns := by
    rw [hi]
    rfl
  have howner := (h.owner i).mpr howns
  -- a writing operation takes effect where it commits, with the lock still held
  refine .step (.perform i k hti) rfl ?_
  have hanswer : (object init method).answer k ((object init method).value t.performed) =
      answer := by
    simp only [object, hk, Method.answer]
  have hsame : (object init method).value (t.performed ++ [(i, k)]) = commit s.value := by
    rw [Object.value_append_singleton, hvalue]
    simp only [object, hk, Method.effect]
  rw [hanswer]
  refine ⟨?_, ?_, h.exclusive, fun _ => hsame.symm, fun _ _ _ => by rw [hsame], ?_⟩
  · exact (Function.forall_update_iff s.thread fun j w => s.owner = some j ↔ w.Owns).mpr
      ⟨by simp [Thread.Owns, howner], fun j _ => h.owner j⟩
  · refine (Function.forall_update_iff s.thread fun j w => j ∈ s.sharers ↔ w.Shares).mpr
      ⟨?_, fun j _ => h.sharers j⟩
    rw [h.exclusive (by simp [howner])]
    simp [Thread.Shares]
  · refine follows_update (.written answer hsame.symm) fun j hj => ?_
    obtain ⟨hfree, hfree'⟩ := h.alone howns hj
    exact (h.thread j).of_free hfree hfree'

theorem Simulates.unlockAlone (h : Simulates init method s t) {i : ι} {answer : β}
    (hi : s.thread i = .written answer) : Simulates init method
      { s.setThread i (.answered answer) with owner := none } t := by
  have hfollows := h.thread i
  rw [hi] at hfollows
  obtain ⟨hti, hvalue⟩ := hfollows.of_written
  have ht : t.thread = Function.update t.thread i (.answered answer) := by
    rw [← hti, Function.update_eq_self]
  have howns : (s.thread i).Owns := by
    rw [hi]
    rfl
  refine ⟨?_, ?_, fun hne => absurd rfl hne, fun _ => hvalue, h.peeks, ?_⟩
  · refine (Function.forall_update_iff s.thread fun j w => none = some j ↔ w.Owns).mpr
      ⟨by simp [Thread.Owns], fun j hj => ?_⟩
    simp only [reduceCtorEq, false_iff]
    exact (h.alone howns hj).1
  · refine (Function.forall_update_iff s.thread fun j w => j ∈ s.sharers ↔ w.Shares).mpr
      ⟨?_, fun j _ => h.sharers j⟩
    rw [h.exclusive (by simp [(h.owner i).mpr howns])]
    simp [Thread.Shares]
  · rw [ht]
    exact follows_update (.answered answer) fun j _ => h.thread j

theorem Simulates.unlockShared (h : Simulates init method s t) {i : ι} {copy : β}
    (hi : s.thread i = .reading copy []) : Simulates init method
      { s.setThread i (.answered copy) with sharers := s.sharers.erase i } t := by
  have hfollows := h.thread i
  rw [hi] at hfollows
  obtain ⟨hti, -⟩ := hfollows.of_reading
  have ht : t.thread = Function.update t.thread i (.answered copy) := by
    rw [← readAll_nil s.value copy, ← hti, Function.update_eq_self]
  refine ⟨?_, ?_, fun hne => ?_, h.value, h.peeks, ?_⟩
  · refine (Function.forall_update_iff s.thread fun j w => s.owner = some j ↔ w.Owns).mpr
      ⟨(h.owner i).trans (by simp [hi, Thread.Owns]), fun j _ => h.owner j⟩
  · refine (Function.forall_update_iff s.thread fun j w => j ∈ s.sharers.erase i ↔ w.Shares).mpr
      ⟨by simp [Thread.Shares], fun j hj => ?_⟩
    rw [Finset.mem_erase]
    exact ⟨fun hmem => (h.sharers j).mp hmem.2, fun hw => ⟨hj, (h.sharers j).mpr hw⟩⟩
  · rw [h.exclusive hne]
    rfl
  · rw [ht]
    exact follows_update (.answered copy) fun j _ => h.thread j

/-- Every step of the monitor is answered. -/
theorem Simulates.next (hhidden : Hidden method) (h : Simulates init method s t)
    (hstep : Step method s l s') : Answers init method t l s' := by
  cases hstep with
  | call i k hi =>
    have hfollows := h.thread i
    rw [hi] at hfollows
    exact .step (.call i k hfollows.eq_idle) rfl
      (h.move rfl rfl rfl (by simp [hi, Thread.Owns]) (by simp [hi, Thread.Shares]) (.called k))
  | lockAlone i k before commit answer hi hk howner hsharers =>
    exact .silent rfl (h.lockAlone hi hk howner hsharers)
  | lockShared i k start reads hi hk howner => exact h.lockShared hi hk howner
  -- a read without a lock is one step, and takes effect there
  | peek i k read hi hk =>
    have hfollows := h.thread i
    rw [hi] at hfollows
    refine .step (.perform i k hfollows.eq_called) rfl
      (h.move rfl ?_ ?_ (by simp [hi, Thread.Owns]) (by simp [hi, Thread.Shares])
        (.answered (read s.value)))
    · simp only [object, hk, Method.answer, h.peeks k read hk]
    · rw [Object.value_append_singleton]
      simp only [object, hk, Method.effect]
  | write i w left commit answer hi => exact .silent rfl (h.write hhidden hi)
  | commit i commit answer hi => exact h.commit hi
  | read i copy r left hi =>
    have hfollows := h.thread i
    rw [hi] at hfollows
    obtain ⟨hti, hvalue⟩ := hfollows.of_reading
    refine .silent rfl (h.move rfl ?_ rfl (by simp [hi, Thread.Owns])
      (by simp [hi, Thread.Shares]) (.reading _ left hvalue))
    rw [← readAll_cons, ← hti, Function.update_eq_self]
  | unlockAlone i answer hi => exact .silent rfl (h.unlockAlone hi)
  | unlockShared i copy hi => exact .silent rfl (h.unlockShared hi)
  | returned i b hi =>
    have hfollows := h.thread i
    rw [hi] at hfollows
    exact .step (.returned i b hfollows.eq_answered) rfl
      (h.move rfl rfl rfl (by simp [hi, Thread.Owns]) (by simp [hi, Thread.Shares]) .idle)

/-! ## Linearizability -/

variable [DecidableEq β]

theorem simulation (init : α) (hhidden : Hidden method) :
    Simulation (monitor ι init method) ((object init method).atomic ι) Label.shown
      Linearizable.Label.shown (Simulates init method) where
  init := by
    refine ⟨?_, ?_, fun _ => rfl, fun _ => rfl, fun _ _ _ => rfl, fun _ => .idle⟩
    · simp [monitor, ofStep, Thread.Owns]
    · simp [monitor, ofStep, Thread.Shares]
  step s t l h he := h.next hhidden (step_cases (step_eq_some he))

/-- What can be seen of a monitor can be seen of the object whose operations are one step
each. -/
theorem exists_run (hhidden : Hidden method) {ls : List (Label ι κ β)}
    (h : (monitor ι init method).IsRun { value := init } ls) :
    ∃ ms, ((object init method).atomic ι).IsRun {} ms ∧
      ms.filterMap Linearizable.Label.shown = ls.filterMap Label.shown ∧
      Simulates init method ((monitor ι init method).exec { value := init } ls)
        (((object init method).atomic ι).exec {} ms) :=
  (simulation init hhidden).run (simulation init hhidden).init h

end Monitor
