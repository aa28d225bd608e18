-- SUMMARY: Whether the two loops of `parseConfig` see the same `--config`.
import CppMiner.Config.Agreement

/-!
# The two passes

The first loop of `parseConfig` looks for `--config` at every position, the second steps from
flag to flag. They see the same one if everything before it is complete: no flag takes it
for its value, and none ends the second loop (`agree_iff_passed`).
-/

namespace CppMiner.Config

/-! ## Positions -/

/-- The position at which the first loop finds `--config`, from `i` on, and the path after
it. -/
def configAt : ℕ → List Bytes → Option (ℕ × Bytes)
  | i, arg :: path :: rest =>
    if arg = bytes "--config" then some (i, path) else configAt (i + 1) (path :: rest)
  | _, _ => none

/-- What the second loop has met when it ends, and its result. -/
structure Trace where
  /-- The positions at which it met `--config` as a flag, with the values. -/
  configs : List (ℕ × Bytes)
  /-- The positions of what it took for the values of other flags. -/
  values : List ℕ
  result : Except Ended MinerConfig

/-- The second loop, with what it meets from position `i` on. -/
def trace : ℕ → List Bytes → MinerConfig → Trace
  | _, [], cfg => { configs := [], values := [], result := .ok cfg }
  | _, [arg], cfg =>
    match Setting.ofFlag arg with
    | some _ =>
      { configs := [], values := []
        result := .error (.exit 1 (bytes "Error: " ++ arg ++ bytes " requires a value.\n")) }
    | none => { configs := [], values := [], result := switch arg cfg }
  | i, arg :: v :: rest, cfg =>
    if arg = bytes "--config" then
      let later := trace (i + 2) rest cfg
      { later with configs := (i, v) :: later.configs }
    else
      match Setting.ofFlag arg with
      | some s =>
        match s.assign v cfg with
        | .ok next =>
          let later := trace (i + 2) rest next
          { later with values := (i + 1) :: later.values }
        | .error ended => { configs := [], values := [i + 1], result := .error ended }
      | none =>
        match switch arg cfg with
        | .ok next => trace (i + 1) (v :: rest) next
        | .error ended => { configs := [], values := [], result := .error ended }

/-- The first loop takes the path that it would without counting. -/
theorem configPath_eq (i : ℕ) (args : List Bytes) :
    configPath args = (configAt i args).map (·.2) := by
  induction i, args using configAt.induct with
  | case1 i path rest => rw [configPath, configAt, if_pos rfl, if_pos rfl, Option.map_some]
  | case2 i arg path rest harg ih => rw [configPath, configAt, if_neg harg, if_neg harg, ih]
  | case3 args i hshort =>
    rcases args with _ | ⟨arg, _ | ⟨path, rest⟩⟩
    · rfl
    · rfl
    · exact absurd rfl (hshort arg path rest)

/-- The second loop has the result that it has without recording. -/
theorem result_trace (i : ℕ) (args : List Bytes) (cfg : MinerConfig) :
    (trace i args cfg).result = overlay args cfg := by
  induction args, cfg using overlay.induct generalizing i with
  | case1 cfg => rfl
  | case2 arg cfg s hs => simp only [trace, overlay, hs]
  | case3 arg cfg hs => simp only [trace, overlay, hs]
  | case4 v rest cfg ih =>
    rw [overlay, if_pos rfl, trace, if_pos rfl]
    exact ih (i + 2)
  | case5 arg v rest cfg hconfig s hs ih =>
    simp only [overlay, trace, if_neg hconfig, hs]
    cases hnext : s.assign v cfg with
    | ok next => exact ih next (i + 2)
    | error ended => rfl
  | case6 arg v rest cfg hconfig hs ih =>
    simp only [overlay, trace, if_neg hconfig, hs]
    cases hnext : switch arg cfg with
    | ok next => exact ih next (i + 1)
    | error ended => rfl

/-! ## Agreement -/

/-- The two loops over `argv`, whose first argument has position 1, agree on `--config`. -/
structure PassesAgree (args : List Bytes) (cfg : MinerConfig) : Prop where
  taken : (configAt 1 args).isSome ↔ (trace 1 args cfg).configs ≠ []
  path : ∀ p ∈ configAt 1 args, ∀ q ∈ (trace 1 args cfg).configs.head?, p.2 = q.2
  noValue : ∀ p ∈ configAt 1 args, p.1 ∉ (trace 1 args cfg).values

/-- The values that a flag can read. -/
def Setting.Reads (v : Bytes) : Setting → Prop
  | threads | printInterval | reconnectDelay => (Numerals.stoul v 10).isSome
  | _ => True

/-- Arguments that the second loop gets past: flags with a value each that can be read, and
words that are no flag with a value and do not end the program. -/
inductive Passed : List Bytes → Prop
  | nil : Passed []
  | word (arg : Bytes) (rest : List Bytes) (noFlag : Setting.ofFlag arg = none)
      (goesOn : arg ∉ [bytes "--help", bytes "-h", bytes "--version", bytes "-v"])
      (later : Passed rest) : Passed (arg :: rest)
  | flag (s : Setting) (v : Bytes) (rest : List Bytes) (reads : s.Reads v)
      (later : Passed rest) : Passed (s.flag :: v :: rest)

theorem Setting.flag_of_ofFlag {arg : Bytes} {s : Setting} (h : ofFlag arg = some s) :
    s.flag = arg := by
  simpa using List.find?_some h

theorem Setting.reads_iff (s : Setting) (v : Bytes) (cfg : MinerConfig) :
    s.Reads v ↔ ∃ next, s.assign v cfg = .ok next := by
  have hnumber : ∀ update : UInt32 → MinerConfig, (Numerals.stoul v 10).isSome ↔
      ∃ next, (do let n ← nextUInt v; return update n) = Except.ok (ε := Ended) next := by
    intro update
    unfold nextUInt
    cases Numerals.stoul v 10 with
    | some n => exact ⟨fun _ => ⟨_, rfl⟩, fun _ => rfl⟩
    | none => exact ⟨fun h => (by cases h), fun ⟨_, h⟩ => (by cases h)⟩
  cases s with
  | threads => exact hnumber _
  | printInterval => exact hnumber _
  | reconnectDelay => exact hnumber _
  | _ => exact ⟨fun _ => ⟨_, rfl⟩, fun _ => trivial⟩

theorem switch_ok_iff (arg : Bytes) (cfg : MinerConfig) :
    arg ∉ [bytes "--help", bytes "-h", bytes "--version", bytes "-v"] ↔
      ∃ next, switch arg cfg = .ok next := by
  simp only [List.mem_cons, List.not_mem_nil, or_false, not_or]
  by_cases hbenchmark : arg = bytes "--benchmark"
  · subst hbenchmark
    exact ⟨fun _ => ⟨_, rfl⟩, fun _ => by decide⟩
  by_cases hhelp : arg = bytes "--help" ∨ arg = bytes "-h"
  · have hends : switch arg cfg = .error (.exit 0 []) := by
      rw [switch, if_neg hbenchmark, if_pos hhelp]
    rw [hends]
    constructor
    · rintro ⟨h1, h2, -⟩
      exact absurd hhelp (not_or.mpr ⟨h1, h2⟩)
    · rintro ⟨next, h⟩
      cases h
  by_cases hversion : arg = bytes "--version" ∨ arg = bytes "-v"
  · have hends : switch arg cfg = .error (.exit 0 []) := by
      rw [switch, if_neg hbenchmark, if_neg hhelp, if_pos hversion]
    rw [hends]
    constructor
    · rintro ⟨-, -, h⟩
      exact absurd hversion (not_or.mpr h)
    · rintro ⟨next, h⟩
      cases h
  · rw [switch, if_neg hbenchmark, if_neg hhelp, if_neg hversion]
    exact ⟨fun _ => ⟨_, rfl⟩, fun _ =>
      ⟨(not_or.mp hhelp).1, (not_or.mp hhelp).2, not_or.mp hversion⟩⟩

/-! ## The first `--config` -/

variable {before rest : List Bytes} {path : Bytes}

theorem configAt_append (h : bytes "--config" ∉ before) (i : ℕ) :
    configAt i (before ++ bytes "--config" :: path :: rest) = some (i + before.length, path) := by
  induction before generalizing i with
  | nil => rw [List.nil_append, configAt, if_pos rfl, List.length_nil, Nat.add_zero]
  | cons arg before ih =>
    simp only [List.mem_cons, not_or] at h
    obtain ⟨next, later, hcons⟩ := List.exists_cons_of_ne_nil
      (List.append_ne_nil_of_right_ne_nil before
        (List.cons_ne_nil (bytes "--config") (path :: rest)))
    rw [List.cons_append, hcons, configAt, if_neg (Ne.symm h.1), ← hcons, ih h.2,
      List.length_cons, Nat.add_assoc, Nat.add_comm 1]

theorem exists_of_configAt {args : List Bytes} {i : ℕ} {p : ℕ × Bytes}
    (h : configAt i args = some p) :
    ∃ before rest, args = before ++ bytes "--config" :: p.2 :: rest ∧
      bytes "--config" ∉ before := by
  induction i, args using configAt.induct with
  | case1 i path rest =>
    rw [configAt, if_pos rfl, Option.some_inj] at h
    exact ⟨[], rest, by rw [← h]; rfl, List.not_mem_nil⟩
  | case2 i arg path rest harg ih =>
    rw [configAt, if_neg harg] at h
    obtain ⟨before, later, heq, hbefore⟩ := ih h
    refine ⟨arg :: before, later, by rw [heq, List.cons_append], ?_⟩
    simp only [List.mem_cons, not_or]
    exact ⟨Ne.symm harg, hbefore⟩
  | case3 args i hshort =>
    rw [configAt] at h
    · cases h
    · exact hshort

/-! ## What the second loop meets -/

theorem values_trace (i : ℕ) (args : List Bytes) (cfg : MinerConfig) :
    ∀ p ∈ (trace i args cfg).values, i < p := by
  induction args, cfg using overlay.induct generalizing i with
  | case1 cfg => simp [trace]
  | case2 arg cfg s hs => simp [trace, hs]
  | case3 arg cfg hs => simp [trace, hs]
  | case4 v rest cfg ih =>
    rw [trace, if_pos rfl]
    exact fun p hp => lt_trans (by omega) (ih (i + 2) p hp)
  | case5 arg v rest cfg hconfig s hs ih =>
    simp only [trace, if_neg hconfig, hs]
    cases hnext : s.assign v cfg with
    | ok next =>
      rw [List.forall_mem_cons]
      exact ⟨Nat.lt_succ_self i, fun p hp => lt_trans (by omega) (ih next (i + 2) p hp)⟩
    | error ended => simp
  | case6 arg v rest cfg hconfig hs ih =>
    simp only [trace, if_neg hconfig, hs]
    cases hnext : switch arg cfg with
    | ok next => exact fun p hp => lt_trans (Nat.lt_succ_self i) (ih next (i + 1) p hp)
    | error ended => simp

theorem configAt_tail {i : ℕ} {arg : Bytes} {rest : List Bytes}
    (h : configAt i (arg :: rest) = none) : configAt (i + 1) rest = none := by
  cases rest with
  | nil => rfl
  | cons path rest =>
    rw [configAt] at h
    split at h
    · cases h
    · exact h

/-- What the first loop does not find, the second does not meet. -/
theorem configs_of_configAt {i j : ℕ} {args : List Bytes} {cfg : MinerConfig}
    (h : configAt j args = none) : (trace i args cfg).configs = [] := by
  induction args, cfg using overlay.induct generalizing i j with
  | case1 cfg => rfl
  | case2 arg cfg s hs => simp [trace, hs]
  | case3 arg cfg hs => simp [trace, hs]
  | case4 v rest cfg ih =>
    rw [configAt, if_pos rfl] at h
    cases h
  | case5 arg v rest cfg hconfig s hs ih =>
    simp only [trace, if_neg hconfig, hs]
    cases hnext : s.assign v cfg with
    | ok next => exact ih next (configAt_tail (configAt_tail h))
    | error ended => rfl
  | case6 arg v rest cfg hconfig hs ih =>
    simp only [trace, if_neg hconfig, hs]
    cases hnext : switch arg cfg with
    | ok next => exact ih next (configAt_tail h)
    | error ended => rfl

theorem trace_word {arg : Bytes} {args : List Bytes} {cfg next : MinerConfig}
    (hconfig : arg ≠ bytes "--config") (hs : Setting.ofFlag arg = none)
    (hnext : switch arg cfg = .ok next) (hne : args ≠ []) (i : ℕ) :
    trace i (arg :: args) cfg = trace (i + 1) args next := by
  obtain ⟨v, rest, rfl⟩ := List.exists_cons_of_ne_nil hne
  simp only [trace, if_neg hconfig, hs, hnext]

theorem trace_flag {s : Setting} {v : Bytes} {args : List Bytes} {cfg next : MinerConfig}
    (hnext : s.assign v cfg = .ok next) (i : ℕ) :
    trace i (s.flag :: v :: args) cfg =
      { trace (i + 2) args next with values := (i + 1) :: (trace (i + 2) args next).values } := by
  simp only [trace, if_neg s.flag_ne_config, Setting.ofFlag_flag, hnext]

theorem configs_of_word_error {arg : Bytes} {args : List Bytes} {cfg : MinerConfig} {ended : Ended}
    (hconfig : arg ≠ bytes "--config") (hs : Setting.ofFlag arg = none)
    (hended : switch arg cfg = .error ended) (hne : args ≠ []) (i : ℕ) :
    (trace i (arg :: args) cfg).configs = [] := by
  obtain ⟨v, rest, rfl⟩ := List.exists_cons_of_ne_nil hne
  simp only [trace, if_neg hconfig, hs, hended]

theorem configs_of_flag_error {s : Setting} {v : Bytes} {args : List Bytes} {cfg : MinerConfig}
    {ended : Ended} (hended : s.assign v cfg = .error ended) (i : ℕ) :
    (trace i (s.flag :: v :: args) cfg).configs = [] := by
  simp only [trace, if_neg s.flag_ne_config, Setting.ofFlag_flag, hended]

/-- The second loop gets to a `--config` after arguments that it gets past. -/
theorem trace_of_passed (h : Passed before) (hbefore : bytes "--config" ∉ before) (i : ℕ)
    (cfg : MinerConfig) (path : Bytes) (rest : List Bytes) :
    ∃ later, (trace i (before ++ bytes "--config" :: path :: rest) cfg).configs =
        (i + before.length, path) :: later ∧
      i + before.length ∉ (trace i (before ++ bytes "--config" :: path :: rest) cfg).values := by
  induction h generalizing i cfg with
  | nil =>
    rw [List.nil_append, trace, if_pos rfl]
    exact ⟨_, rfl, fun hmem => absurd (values_trace (i + 2) rest cfg i hmem) (by omega)⟩
  | word arg before hs hgoes _ ih =>
    simp only [List.mem_cons, not_or] at hbefore
    obtain ⟨next, hnext⟩ := (switch_ok_iff arg cfg).mp hgoes
    have hlen : i + (arg :: before).length = i + 1 + before.length := by
      rw [List.length_cons, Nat.add_assoc, Nat.add_comm 1]
    rw [List.cons_append, trace_word (Ne.symm hbefore.1) hs hnext (by simp), hlen]
    exact ih hbefore.2 (i + 1) next
  | flag s v before hreads _ ih =>
    simp only [List.mem_cons, not_or] at hbefore
    obtain ⟨next, hnext⟩ := (s.reads_iff v cfg).mp hreads
    obtain ⟨later, hconfigs, hvalues⟩ := ih hbefore.2.2 (i + 2) next
    have hlen : i + (s.flag :: v :: before).length = i + 2 + before.length := by
      rw [List.length_cons, List.length_cons]
      omega
    rw [List.cons_append, List.cons_append, trace_flag hnext, hlen]
    refine ⟨later, hconfigs, fun hmem => ?_⟩
    rcases List.mem_cons.mp hmem with heq | hmem
    · omega
    · exact hvalues hmem

/-- Otherwise it has ended before, or has taken that `--config` for a value. -/
theorem trace_of_not_passed (h : ¬ Passed before) (hbefore : bytes "--config" ∉ before) (i : ℕ)
    (cfg : MinerConfig) :
    (trace i (before ++ bytes "--config" :: path :: rest) cfg).configs = [] ∨
      i + before.length ∈ (trace i (before ++ bytes "--config" :: path :: rest) cfg).values := by
  induction before using List.twoStepInduction generalizing i cfg with
  | nil => exact absurd .nil h
  | singleton arg =>
    simp only [List.mem_singleton] at hbefore
    rw [List.cons_append, List.nil_append, List.length_singleton]
    cases hs : Setting.ofFlag arg with
    | some s =>
      rw [← Setting.flag_of_ofFlag hs]
      cases hnext : s.assign (bytes "--config") cfg with
      | ok next =>
        rw [trace_flag hnext]
        exact .inr List.mem_cons_self
      | error ended => exact .inl (configs_of_flag_error hnext i)
    | none =>
      cases hnext : switch arg cfg with
      | ok next => exact absurd (.word arg [] hs ((switch_ok_iff arg cfg).mpr ⟨next, hnext⟩) .nil) h
      | error ended => exact .inl (configs_of_word_error (Ne.symm hbefore) hs hnext (by simp) i)
  -- a flag moves on by two arguments and any other by one, hence the induction with two steps
  | cons_cons arg v before ih ih' =>
    simp only [List.mem_cons, not_or] at hbefore
    rw [List.cons_append, List.cons_append, List.length_cons, List.length_cons]
    cases hs : Setting.ofFlag arg with
    | some s =>
      rw [← Setting.flag_of_ofFlag hs]
      cases hnext : s.assign v cfg with
      | ok next =>
        have hrest : ¬ Passed before := fun hpassed => h (by
          rw [← Setting.flag_of_ofFlag hs]
          exact .flag s v before ((s.reads_iff v cfg).mpr ⟨next, hnext⟩) hpassed)
        have hlater := ih hrest hbefore.2.2 (i + 2) next
        rw [trace_flag hnext, show i + (before.length + 1 + 1) = i + 2 + before.length by omega]
        exact hlater.imp_right (List.mem_cons_of_mem _)
      | error ended => exact .inl (configs_of_flag_error hnext i)
    | none =>
      cases hnext : switch arg cfg with
      | ok next =>
        have hrest : ¬ Passed (v :: before) := fun hpassed =>
          h (.word arg _ hs ((switch_ok_iff arg cfg).mpr ⟨next, hnext⟩) hpassed)
        have hlater := ih' v hrest (by simp [hbefore.2.1, hbefore.2.2]) (i + 1) next
        rw [List.cons_append, List.length_cons] at hlater
        rw [trace_word (Ne.symm hbefore.1) hs hnext (by simp),
          show i + (before.length + 1 + 1) = i + 1 + (before.length + 1) by omega]
        exact hlater
      | error ended => exact .inl (configs_of_word_error (Ne.symm hbefore.1) hs hnext (by simp) i)

/-- The two loops agree if and only if the second gets past everything before the first
`--config` that has a value. -/
theorem agree_iff_passed (args : List Bytes) (cfg : MinerConfig) :
    PassesAgree args cfg ↔
      ∀ before path rest, args = before ++ bytes "--config" :: path :: rest →
        bytes "--config" ∉ before → Passed before := by
  constructor
  · rintro hagree before path rest rfl hbefore
    by_contra hpassed
    have hat : configAt 1 (before ++ bytes "--config" :: path :: rest) =
        some (1 + before.length, path) := configAt_append hbefore 1
    -- the first loop has found the `--config`, which the second has not, or not as one
    rcases trace_of_not_passed hpassed hbefore 1 cfg with hnone | hvalue
    · exact hagree.taken.mp (by rw [hat]; rfl) hnone
    · exact hagree.noValue _ hat hvalue
  · intro hpassed
    cases hat : configAt 1 args with
    | none =>
      have hnone : (trace 1 args cfg).configs = [] := configs_of_configAt hat
      exact ⟨by simp [hat, hnone], by simp [hat], by simp [hat]⟩
    | some p =>
      obtain ⟨before, rest, rfl, hbefore⟩ := exists_of_configAt hat
      rw [configAt_append hbefore, Option.some_inj] at hat
      obtain ⟨later, hconfigs, hvalues⟩ := trace_of_passed
        (hpassed before p.2 rest rfl hbefore) hbefore 1 cfg p.2 rest
      have hat' : configAt 1 (before ++ bytes "--config" :: p.2 :: rest) =
          some (1 + before.length, p.2) := configAt_append hbefore 1
      refine ⟨by simp [hat', hconfigs], ?_, ?_⟩
      · rw [hat', hconfigs]
        rintro _ ⟨⟩ _ ⟨⟩
        rfl
      · rw [hat']
        rintro _ ⟨⟩
        exact hvalues

/-- The value of `--url` is taken for `--config`. -/
theorem config_taken_for_value :
    ¬ ∀ (args : List Bytes) (cfg : MinerConfig), PassesAgree args cfg := by
  intro h
  have hagree := h [bytes "--url", bytes "--config", bytes "x"] {}
  exact hagree.noValue (2, bytes "x") (by decide) (by decide)

end CppMiner.Config
