-- SUMMARY: The hashrates of the engine: which hashes their windows count, over starts, stops and samples.
import Mathlib.Tactic.FieldSimp
import Mathlib.Tactic.Linarith
import Mathlib.Tactic.NormNum
import Mathlib.Data.Rat.Cast.Order
import CppMiner.Lib.Transition

/-!
# Hashrates

`currentHashrate` divides what the counter of hashes has gained since the last sample by the
time since then, and makes the present the last sample; `averageHashrate` divides the counter
by the time since `start`. Within a millisecond both report zero. `start` sets the count of
the last sample back to zero, but not the counter.

A rate times its elapsed time is the number of hashes that it attributes to its window. A
`Meter` records, beside what the engine keeps, how many hashes were done and attributed since
the latest start. Times are in seconds, and rates are exact quotients.
-/

namespace CppMiner.Miner

/-- What the engine keeps for the rates. -/
structure Rates where
  running : Bool := false
  hashesTotal : UInt64 := 0
  startTime : ℚ := 0
  lastSampleHashes : UInt64 := 0
  lastSampleTime : ℚ := 0

namespace Rates

def start (r : Rates) (now : ℚ) : Rates :=
  if r.running then r
  else { r with running := true, startTime := now, lastSampleTime := now, lastSampleHashes := 0 }

def stop (r : Rates) : Rates := if r.running then { r with running := false } else r

/-- A worker has computed a digest. -/
def hash (r : Rates) : Rates := { r with hashesTotal := r.hashesTotal + 1 }

def currentHashrate (r : Rates) (now : ℚ) : ℚ × Rates :=
  let nowHashes := r.hashesTotal
  let elapsedSec := now - r.lastSampleTime
  let previousHashes := r.lastSampleHashes
  let rate :=
    if elapsedSec > 1 / 1000 ∧ nowHashes ≥ previousHashes then
      ((nowHashes - previousHashes).toNat : ℚ) / elapsedSec
    else 0
  (rate, { r with lastSampleHashes := nowHashes, lastSampleTime := now })

def averageHashrate (r : Rates) (now : ℚ) : ℚ :=
  let elapsedSec := now - r.startTime
  if elapsedSec ≤ 1 / 1000 then 0 else (r.hashesTotal.toNat : ℚ) / elapsedSec

end Rates

/-- The rates with the clock. All but the rates is recorded. -/
structure Meter where
  rates : Rates := {}
  /-- The last reading of the clock. -/
  clock : ℚ
  started : Bool := false
  /-- The hashes done in all, and of these before the latest start. -/
  hashes : ℕ := 0
  before : ℕ := 0
  /-- Whether no sample was taken since the latest start. -/
  fresh : Bool := true
  /-- The hashes done before the last sample since the latest start, or else before that. -/
  sampled : ℕ := 0
  /-- What the windows since the latest start count together. -/
  attributed : ℚ := 0
  /-- What each average counts, with the hashes done since the latest start. -/
  averages : List (ℚ × ℕ) := []

namespace Meter

inductive Label where
  | start (now : ℚ)
  | stop
  | hash
  | currentHashrate (now : ℚ)
  | averageHashrate (now : ℚ)

/-- The clock does not go back. -/
def Enabled (s : Meter) : Label → Prop
  | .start now | .currentHashrate now | .averageHashrate now => s.clock ≤ now
  | .stop | .hash => True

instance (s : Meter) (l : Label) : Decidable (s.Enabled l) :=
  match l with
  | .start now | .currentHashrate now | .averageHashrate now =>
    inferInstanceAs (Decidable (s.clock ≤ now))
  | .stop | .hash => .isTrue trivial

def next (s : Meter) : Label → Meter
  | .start now =>
    if s.rates.running then { s with clock := now }
    else
      { s with
        rates := s.rates.start now
        clock := now
        started := true
        before := s.hashes
        fresh := true
        sampled := s.hashes
        attributed := 0 }
  | .stop => { s with rates := s.rates.stop }
  | .hash => { s with rates := s.rates.hash, hashes := s.hashes + 1 }
  | .currentHashrate now =>
    let result := s.rates.currentHashrate now
    { s with
      rates := result.2
      clock := now
      fresh := false
      sampled := s.hashes
      attributed := s.attributed + result.1 * (now - s.rates.lastSampleTime) }
  | .averageHashrate now =>
    { s with
      clock := now
      averages :=
        if s.started then
          s.averages ++
            [(s.rates.averageHashrate now * (now - s.rates.startTime), s.hashes - s.before)]
        else s.averages }

/-- The windows since the latest start count the hashes done up to the last sample, and every
average counts the hashes done since the latest start. -/
structure Conserved (s : Meter) : Prop where
  windows : s.started = true → s.attributed = s.sampled - s.before
  averages : ∀ a ∈ s.averages, a.1 = a.2

/-- The counter was zero at the latest start, and has not wrapped since. -/
def FromZero (s : Meter) : Prop := s.before % 2 ^ 64 = 0 ∧ s.hashes < s.before + 2 ^ 64

instance (s : Meter) : Decidable s.FromZero :=
  inferInstanceAs (Decidable (s.before % 2 ^ 64 = 0 ∧ s.hashes < s.before + 2 ^ 64))

/-- A rate is asked for at a time for which it counts every hash: within a millisecond if there
was none; later, if the counter has not wrapped, and the part of it that is counted is zero
at the start. -/
def Counted (s : Meter) : Label → Prop
  | .currentHashrate now =>
    s.started = true →
      if now - s.rates.lastSampleTime ≤ 1 / 1000 then s.hashes = s.sampled
      else if s.fresh then s.FromZero
      else s.hashes / 2 ^ 64 = s.sampled / 2 ^ 64
  | .averageHashrate now =>
    s.started = true →
      if now - s.rates.startTime ≤ 1 / 1000 then s.hashes = s.before else s.FromZero
  | _ => True

instance (s : Meter) (l : Label) : Decidable (s.Counted l) :=
  match l with
  | .currentHashrate now =>
    inferInstanceAs (Decidable (s.started = true →
      if now - s.rates.lastSampleTime ≤ 1 / 1000 then s.hashes = s.sampled
      else if s.fresh then s.FromZero
      else s.hashes / 2 ^ 64 = s.sampled / 2 ^ 64))
  | .averageHashrate now =>
    inferInstanceAs (Decidable (s.started = true →
      if now - s.rates.startTime ≤ 1 / 1000 then s.hashes = s.before else s.FromZero))
  | .start _ | .stop | .hash => .isTrue trivial

/-- What the engine keeps is what was recorded, as far as it fits. -/
structure Recorded (s : Meter) : Prop where
  total : s.rates.hashesTotal.toNat = s.hashes % 2 ^ 64
  last : s.started = true →
    s.rates.lastSampleHashes.toNat = if s.fresh then 0 else s.sampled % 2 ^ 64
  fresh : s.fresh = true → s.sampled = s.before
  before : s.before ≤ s.sampled
  sampled : s.sampled ≤ s.hashes

/-! ## Windows -/

/-- What a window counts. -/
theorem currentHashrate_mul (r : Rates) (now : ℚ) :
    (r.currentHashrate now).1 * (now - r.lastSampleTime) =
      if now - r.lastSampleTime ≤ 1 / 1000 then 0
      else ((r.hashesTotal.toNat - r.lastSampleHashes.toNat : ℕ) : ℚ) := by
  simp only [Rates.currentHashrate, gt_iff_lt, ge_iff_le, UInt64.le_iff_toNat_le]
  by_cases helapsed : now - r.lastSampleTime ≤ 1 / 1000
  · rw [if_pos helapsed, if_neg fun h => absurd h.1 (not_lt.mpr helapsed), zero_mul]
  · have hne : now - r.lastSampleTime ≠ 0 := by
      intro hzero
      rw [hzero] at helapsed
      norm_num at helapsed
    rw [if_neg helapsed]
    split
    · rename_i h
      rw [UInt64.toNat_sub_of_le _ _ (UInt64.le_iff_toNat_le.mpr h.2), div_mul_cancel₀ _ hne]
    · rename_i h
      have hlt : r.hashesTotal.toNat < r.lastSampleHashes.toNat := by
        by_contra hle
        exact h ⟨not_le.mp helapsed, not_lt.mp hle⟩
      rw [zero_mul, Nat.sub_eq_zero_of_le hlt.le, Nat.cast_zero]

theorem averageHashrate_mul (r : Rates) (now : ℚ) :
    r.averageHashrate now * (now - r.startTime) =
      if now - r.startTime ≤ 1 / 1000 then 0 else (r.hashesTotal.toNat : ℚ) := by
  simp only [Rates.averageHashrate]
  split
  · rw [zero_mul]
  · rename_i helapsed
    have hne : now - r.startTime ≠ 0 := by
      intro hzero
      rw [hzero] at helapsed
      norm_num at helapsed
    rw [div_mul_cancel₀ _ hne]

/-! ## Records -/

variable {s : Meter} {l : Label}

theorem Recorded.next (h : s.Recorded) (l : Label) : (s.next l).Recorded := by
  cases l with
  | start now =>
    rw [Meter.next]
    split
    · exact ⟨h.total, h.last, h.fresh, h.before, h.sampled⟩
    · rename_i hrunning
      have hstart : s.rates.start now =
          { s.rates with
            running := true, startTime := now, lastSampleTime := now, lastSampleHashes := 0 } :=
        if_neg hrunning
      refine ⟨?_, fun _ => ?_, fun _ => rfl, le_rfl, le_rfl⟩
      · rw [hstart]
        exact h.total
      · rw [hstart]
        rfl
  | stop =>
    have hstop : s.rates.stop.hashesTotal = s.rates.hashesTotal ∧
        s.rates.stop.lastSampleHashes = s.rates.lastSampleHashes := by
      unfold Rates.stop
      split <;> exact ⟨rfl, rfl⟩
    refine ⟨?_, fun hstarted => ?_, h.fresh, h.before, h.sampled⟩
    · rw [Meter.next, hstop.1, h.total]
    · rw [Meter.next, hstop.2, h.last hstarted]
  | hash =>
    refine ⟨?_, h.last, h.fresh, h.before, Nat.le_succ_of_le h.sampled⟩
    have htotal := h.total
    simp only [Meter.next, Rates.hash, UInt64.toNat_add, UInt64.toNat_one]
    omega
  | currentHashrate now =>
    exact ⟨h.total, fun _ => h.total, by rintro ⟨⟩, h.before.trans h.sampled, le_rfl⟩
  | averageHashrate now => exact ⟨h.total, h.last, h.fresh, h.before, h.sampled⟩

/-- A window counts the hashes done since the last sample if and only if it is asked for at
such a time. -/
theorem window_iff (h : s.Recorded) (hstarted : s.started = true) (now : ℚ) :
    (s.rates.currentHashrate now).1 * (now - s.rates.lastSampleTime) =
        s.hashes - s.sampled ↔ s.Counted (.currentHashrate now) := by
  have hlast := h.last hstarted
  have htotal := h.total
  have hbefore := h.before
  have hsampled := h.sampled
  rw [currentHashrate_mul, hlast, htotal, ← Nat.cast_sub hsampled]
  simp only [Counted, hstarted, forall_const]
  split
  · rw [← Nat.cast_zero, Nat.cast_inj]
    omega
  · rw [Nat.cast_inj]
    cases hfresh : s.fresh with
    | true =>
      have heq := h.fresh hfresh
      simp only [if_true, FromZero]
      omega
    | false =>
      simp only [Bool.false_eq_true, if_false]
      omega

theorem average_iff (h : s.Recorded) (hstarted : s.started = true) (now : ℚ) :
    s.rates.averageHashrate now * (now - s.rates.startTime) = (s.hashes - s.before : ℕ) ↔
      s.Counted (.averageHashrate now) := by
  have htotal := h.total
  have hbefore := h.before
  have hsampled := h.sampled
  rw [averageHashrate_mul, htotal]
  simp only [Counted, hstarted, forall_const]
  split
  · rw [← Nat.cast_zero, Nat.cast_inj]
    omega
  · rw [Nat.cast_inj, FromZero]
    omega

/-- A step conserves the hashes if and only if it asks for a rate at such a time. -/
theorem Conserved.next_iff (h : s.Conserved) (hr : s.Recorded) (l : Label) :
    (s.next l).Conserved ↔ s.Counted l := by
  cases l with
  | start now =>
    refine iff_of_true ?_ trivial
    rw [Meter.next]
    split
    · exact ⟨h.windows, h.averages⟩
    · exact ⟨fun _ => (sub_self _).symm, h.averages⟩
  | stop => exact iff_of_true ⟨h.windows, h.averages⟩ trivial
  | hash => exact iff_of_true ⟨h.windows, h.averages⟩ trivial
  -- a sample adds its window to those before it; `window_iff` says when it is the right one
  | currentHashrate now =>
    cases hstarted : s.started with
    | false =>
      refine iff_of_true ⟨fun htrue => ?_, h.averages⟩ fun htrue => ?_
      · rw [show (s.next (.currentHashrate now)).started = s.started from rfl, hstarted] at htrue
        cases htrue
      · rw [hstarted] at htrue
        cases htrue
    | true =>
      rw [← window_iff hr hstarted now]
      have hwindows := h.windows hstarted
      constructor
      · intro hnext
        have hsum := hnext.windows hstarted
        simp only [Meter.next] at hsum
        linarith
      · intro hwindow
        refine ⟨fun _ => ?_, h.averages⟩
        simp only [Meter.next]
        linarith
  | averageHashrate now =>
    cases hstarted : s.started with
    | false =>
      refine iff_of_true ⟨h.windows, ?_⟩ fun htrue => ?_
      · simp only [Meter.next, hstarted, Bool.false_eq_true, if_false]
        exact h.averages
      · rw [hstarted] at htrue
        cases htrue
    | true =>
      rw [← average_iff hr hstarted now]
      constructor
      · intro hnext
        have hlast := hnext.averages
          (s.rates.averageHashrate now * (now - s.rates.startTime), s.hashes - s.before)
        exact hlast (by simp [Meter.next, hstarted])
      · intro haverage
        refine ⟨h.windows, ?_⟩
        simp only [Meter.next, hstarted, if_true]
        exact List.forall_mem_append.mpr ⟨h.averages, List.forall_mem_singleton.mpr haverage⟩

end Meter

/-! ## Runs -/

/-- The meter of an engine that is made when the clock reads `t`. -/
def meter (t : ℚ) : TransitionSystem Meter Meter.Label where
  init := { clock := t }
  Enabled := Meter.Enabled
  next := Meter.next

instance (t : ℚ) (s : Meter) (l : Meter.Label) : Decidable ((meter t).Enabled s l) :=
  inferInstanceAs (Decidable (s.Enabled l))

open Meter

variable {t : ℚ} {s : Meter} {P : Meter → Label → Prop}

theorem recorded_of_reach (h : (meter t).Reach P s) : s.Recorded := by
  have hinit : (meter t).init.Recorded :=
    ⟨rfl, fun hstarted => (Bool.false_ne_true hstarted).elim, fun _ => rfl, le_rfl, le_rfl⟩
  exact h.invariant hinit fun s l hr _ _ => hr.next l

/-- In a run that asks for rates only at such times, every hash is counted once, and a step
that asks for one at another time miscounts. -/
theorem conserved_of_reach (h : (meter t).Reach Counted s) :
    s.Conserved ∧
      ∀ l, (meter t).Enabled s l → (((meter t).next s l).Conserved ↔ s.Counted l) := by
  have hinit : (meter t).init.Conserved :=
    ⟨fun hstarted => (Bool.false_ne_true hstarted).elim, fun a ha => absurd ha List.not_mem_nil⟩
  have hconserved : s.Conserved :=
    h.invariant_of (fun _ hs => recorded_of_reach hs) hinit fun s l hr hc _ hP =>
      (hc.next_iff hr l).mpr hP
  exact ⟨hconserved, fun l _ => hconserved.next_iff (recorded_of_reach h) l⟩

/-- One digest, and both rates two seconds after the start. -/
theorem conserved_of_reach_one :
    let run : List Label := [.start 1, .hash, .currentHashrate 3, .averageHashrate 3]
    let s := (meter 0).exec (meter 0).init run
    s.attributed = 1 ∧ s.averages = [(1, 1)] ∧ s.Conserved := by
  intro run s
  have hvalid : (meter 0).Valid Counted (meter 0).init run := by decide +kernel
  have hvalues : s.attributed = 1 ∧ s.averages = [(1, 1)] := by decide +kernel
  exact ⟨hvalues.1, hvalues.2, (conserved_of_reach (.exec .init hvalid)).1⟩

/-- What was hashed before a second start is counted after it. -/
theorem restart_miscounts :
    ¬ ∀ (t : ℚ) (s : Meter), (meter t).Reachable s → s.Conserved := by
  intro h
  let run : List Label := [.start 1, .hash, .stop, .start 2, .currentHashrate 3]
  let s := (meter 0).exec (meter 0).init run
  have hreach : (meter 0).Reachable s := .exec .init (by decide +kernel)
  have hvalues : s.attributed = 1 ∧ s.sampled = 1 ∧ s.before = 1 := by decide +kernel
  have hwindows := (h 0 s hreach).windows rfl
  rw [hvalues.1, hvalues.2.1, hvalues.2.2] at hwindows
  norm_num at hwindows

end CppMiner.Miner
