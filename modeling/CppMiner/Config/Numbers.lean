-- SUMMARY: Which texts of numeric settings are stored as the number they denote, and which are wrapped.
import CppMiner.Config.Validated

/-!
# Numeric settings

Four settings are numbers. Each can be an entry of the configuration text, and three of them
the value of a flag. Both ways the text goes through `std::stoul`, which takes a minus for a
negation modulo `2 ^ 64`, and is then cut to 32 bits. A setting has a fallback, which the
entry falls back to and the flag has for a default.
-/

namespace CppMiner.Config

open Numerals (signed)

/-- The settings that are numbers. -/
inductive Numeric where
  | threads
  | donateLevel
  | printInterval
  | reconnectDelay
  deriving DecidableEq

namespace Numeric

def sectionName : Numeric → Bytes
  | threads | donateLevel => bytes "Mining"
  | printInterval => bytes "Performance"
  | reconnectDelay => bytes "Network"

def key : Numeric → Bytes
  | threads => bytes "threads"
  | donateLevel => bytes "donate_level"
  | printInterval => bytes "print_hashrate_interval"
  | reconnectDelay => bytes "reconnect_delay"

def fallback : Numeric → UInt32
  | threads => 0
  | donateLevel => 1
  | printInterval | reconnectDelay => 5

def flag : Numeric → Option Setting
  | threads => some .threads
  | donateLevel => none
  | printInterval => some .printInterval
  | reconnectDelay => some .reconnectDelay

/-- Where the number is stored. -/
def field : Numeric → MinerConfig → UInt32
  | threads => MinerConfig.threads
  | donateLevel => MinerConfig.donateLevel
  | printInterval => MinerConfig.hashrateIntervalSec
  | reconnectDelay => MinerConfig.reconnectDelaySec

end Numeric

/-- The number of the decimal digits at the front, after blanks and a plus. -/
def leadingNumber (s : Bytes) : Option ℕ :=
  let s := s.dropWhile isspace
  let ds := (if s.head? = some '+'.toUInt8 then s.drop 1 else s).takeWhile isdigit
  if ds = [] then none else some (Radix.decode 10 ds)

/-- The fallback, or the number that the text denotes. -/
def Exact (fallback : UInt32) (v : Bytes) (stored : UInt32) : Prop :=
  stored = fallback ∨ leadingNumber v = some stored.toNat

/-- A number that is neither negative nor too large for its type, unless `stoul` refuses it
or it is the fallback that is left of it. -/
def Unwrapped (fallback : UInt32) (v : Bytes) : Prop :=
  ∀ neg n, signed v = some (neg, n) → n < 2 ^ 64 →
    neg = false ∧ n < 2 ^ 32 ∨ (if neg then -n else n : ℤ) % 2 ^ 32 = fallback.toNat

/-! ## Conversion -/

theorem leadingNumber_eq (s : Bytes) :
    leadingNumber s = (signed s).bind fun x => if x.1 then none else some x.2 := by
  unfold leadingNumber signed
  generalize s.dropWhile isspace = s
  cases s with
  | nil => rfl
  | cons c s =>
    by_cases hm : c = '-'.toUInt8
    · subst hm
      have hdigits : ('-'.toUInt8 :: s).takeWhile isdigit = [] :=
        List.takeWhile_cons_of_neg (by decide)
      have hplus : ¬ ('-'.toUInt8 :: s).head? = some '+'.toUInt8 := by
        rw [List.head?_cons]
        decide
      simp only [if_neg hplus, hdigits, Numerals.sign, if_true]
      split <;> rfl
    · by_cases hp : c = '+'.toUInt8
      · subst hp
        simp only [List.head?_cons, if_true, List.drop_one, List.tail_cons, Numerals.sign,
          if_neg hm]
        split <;> rfl
      · simp only [List.head?_cons, Option.some.injEq, if_neg hp, Numerals.sign, if_neg hm]
        split <;> rfl

/-- What is left of a number in 32 bits. -/
theorem toNat_cut (neg : Bool) {n : ℕ} (hn : n < 2 ^ 64) :
    ((UInt32.ofNat (if neg then (2 ^ 64 - n) % 2 ^ 64 else n)).toNat : ℤ) =
      (if neg then -n else n : ℤ) % 2 ^ 32 := by
  rw [UInt32.toNat_ofNat']
  cases neg with
  | false => simp
  | true =>
    simp only [if_true]
    omega

theorem exact_cut_iff {fallback : UInt32} {v : Bytes} {neg : Bool} {n : ℕ}
    (hsigned : signed v = some (neg, n)) (hn : n < 2 ^ 64) :
    Exact fallback v (UInt32.ofNat (if neg then (2 ^ 64 - n) % 2 ^ 64 else n)) ↔
      Unwrapped fallback v := by
  have hcut := toNat_cut neg hn
  have hfallback := fallback.toNat_lt
  rw [Exact, ← UInt32.toNat_inj, leadingNumber_eq, hsigned, Option.bind_some]
  have hunwrapped : Unwrapped fallback v ↔
      (neg = false ∧ n < 2 ^ 32 ∨ (if neg then -n else n : ℤ) % 2 ^ 32 = fallback.toNat) := by
    constructor
    · exact fun h => h neg n hsigned hn
    · intro h neg' n' hsigned' _
      rw [hsigned] at hsigned'
      obtain ⟨rfl, rfl⟩ := Prod.mk.inj (Option.some.inj hsigned')
      exact h
  rw [hunwrapped]
  cases neg with
  | false =>
    simp only [Bool.false_eq_true, if_false, Option.some.injEq, true_and] at hcut ⊢
    omega
  | true =>
    simp only [if_true, reduceCtorEq, false_and, false_or, or_false] at hcut ⊢
    omega

/-- An entry is stored as the number it denotes, or not at all, unless it is wrapped. -/
theorem exact_toUInt_iff (fallback : UInt32) (v : Bytes) :
    Exact fallback v (toUInt v fallback) ↔ Unwrapped fallback v := by
  rw [toUInt, Numerals.stoul_eq]
  cases hsigned : signed v with
  | none =>
    refine iff_of_true (.inl rfl) fun neg n h => ?_
    rw [hsigned] at h
    cases h
  | some x =>
    obtain ⟨neg, n⟩ := x
    rw [Option.bind_some]
    by_cases hn : 2 ^ 64 ≤ n
    · rw [if_pos hn]
      refine iff_of_true (.inl rfl) fun neg' n' h hlt => ?_
      rw [hsigned] at h
      obtain ⟨rfl, rfl⟩ := Prod.mk.inj (Option.some.inj h)
      omega
    · rw [if_neg hn]
      exact exact_cut_iff hsigned (by omega)

/-- A flag stores what an entry stores, where its value does not end the program. -/
theorem exact_nextUInt_iff (fallback : UInt32) (v : Bytes) :
    (∀ n, Setting.nextUInt v = .ok n → Exact fallback v n) ↔ Unwrapped fallback v := by
  rw [← exact_toUInt_iff]
  unfold Setting.nextUInt toUInt
  cases Numerals.stoul v 10 with
  | none => exact iff_of_true (by rintro n ⟨⟩) (.inl rfl)
  | some m =>
    constructor
    · exact fun h => h _ rfl
    · rintro h n ⟨⟩
      exact h

/-! ## Settings -/

/-- An entry of the text is what is stored, before validation. -/
theorem field_readSections {text v : Bytes} {k : Numeric}
    (h : entry text k.sectionName k.key = some v) :
    k.field (readSections (parseIni text)) = toUInt v k.fallback := by
  obtain ⟨sec, hsec, hv⟩ := Option.bind_eq_some_iff.mp h
  have hget : ∀ fallback, sec.get k.key fallback = v := fun fallback => by
    rw [Section.get, hv, Option.getD_some]
  have hread : ∀ (read : Section → MinerConfig → MinerConfig) (cfg : MinerConfig),
      readSection (parseIni text) k.sectionName read cfg = read sec cfg := fun read cfg => by
    rw [readSection, hsec]
  unfold readSections
  cases k with
  | threads =>
    simp only [Numeric.field,
      readSection_frame MinerConfig.threads readNetwork (fun _ _ => rfl),
      readSection_frame MinerConfig.threads readLogging (fun _ _ => rfl),
      readSection_frame MinerConfig.threads readPerformance (fun _ _ => rfl)]
    rw [show bytes "Mining" = Numeric.sectionName .threads from rfl, hread]
    exact congrArg (toUInt · 0) (hget _)
  | donateLevel =>
    simp only [Numeric.field,
      readSection_frame MinerConfig.donateLevel readNetwork (fun _ _ => rfl),
      readSection_frame MinerConfig.donateLevel readLogging (fun _ _ => rfl),
      readSection_frame MinerConfig.donateLevel readPerformance (fun _ _ => rfl)]
    rw [show bytes "Mining" = Numeric.sectionName .donateLevel from rfl, hread]
    exact congrArg (toUInt · 1) (hget _)
  | printInterval =>
    simp only [Numeric.field,
      readSection_frame MinerConfig.hashrateIntervalSec readNetwork (fun _ _ => rfl),
      readSection_frame MinerConfig.hashrateIntervalSec readLogging (fun _ _ => rfl)]
    rw [show bytes "Performance" = Numeric.sectionName .printInterval from rfl, hread]
    exact congrArg (toUInt · 5) (hget _)
  | reconnectDelay =>
    rw [show bytes "Network" = Numeric.sectionName .reconnectDelay from rfl, hread]
    exact congrArg (toUInt · 5) (hget _)

theorem assign_flag {k : Numeric} {s : Setting} (hs : s ∈ k.flag) (v : Bytes)
    (cfg : MinerConfig) (P : UInt32 → Prop) :
    (∀ cfg', s.assign v cfg = .ok cfg' → P (k.field cfg')) ↔
      ∀ n, Setting.nextUInt v = .ok n → P n := by
  cases k with
  | donateLevel => cases hs
  | threads | printInterval | reconnectDelay =>
    cases hs
    simp only [Setting.assign, bind, Except.bind, Numeric.field]
    cases Setting.nextUInt v with
    | error e => exact iff_of_true (by rintro _ ⟨⟩) (by rintro _ ⟨⟩)
    | ok n =>
      constructor
      · rintro h _ ⟨⟩
        exact h _ rfl
      · rintro h _ ⟨⟩
        exact h _ rfl

/-- A numeric setting is stored as the number that its text denotes, or falls back, or the
program ends, if and only if nothing is wrapped: both in the configuration text and on the
command line. -/
theorem stored_exact_iff (k : Numeric) (v : Bytes) :
    (∀ text, entry text k.sectionName k.key = some v →
      (Exact k.fallback v (k.field (readSections (parseIni text))) ↔ Unwrapped k.fallback v)) ∧
    ∀ s ∈ k.flag, ∀ cfg : MinerConfig,
      (∀ cfg', s.assign v cfg = .ok cfg' → Exact k.fallback v (k.field cfg')) ↔
        Unwrapped k.fallback v := by
  refine ⟨fun text hentry => ?_, fun s hs cfg => ?_⟩
  · rw [field_readSections hentry]
    exact exact_toUInt_iff k.fallback v
  · rw [assign_flag hs v cfg (Exact k.fallback v)]
    exact exact_nextUInt_iff k.fallback v

theorem stored_exact_iff_threads :
    (Exact 0 (bytes "4") (readSections (parseIni (bytes "[Mining]\nthreads=4"))).threads ↔
        Unwrapped 0 (bytes "4")) ∧
      ∀ cfg : MinerConfig,
        (∀ cfg', Setting.threads.assign (bytes "4") cfg = .ok cfg' →
          Exact 0 (bytes "4") cfg'.threads) ↔ Unwrapped 0 (bytes "4") := by
  have hentry : entry (bytes "[Mining]\nthreads=4") (bytes "Mining") (bytes "threads") =
      some (bytes "4") := by
    decide +kernel
  exact ⟨(stored_exact_iff .threads (bytes "4")).1 _ hentry,
    (stored_exact_iff .threads (bytes "4")).2 .threads rfl⟩

/-- One thread fewer than none is all that fit into 32 bits. -/
theorem threads_wrapped :
    (readSections (parseIni (bytes "[Mining]\nthreads=-1"))).threads = 4294967295 ∧
      (∀ cfg : MinerConfig, Setting.threads.assign (bytes "-1") cfg =
        .ok { cfg with threads := 4294967295 }) ∧
      ¬ Exact 0 (bytes "-1") 4294967295 := by
  have hentry : entry (bytes "[Mining]\nthreads=-1") (bytes "Mining") (bytes "threads") =
      some (bytes "-1") := by
    decide +kernel
  have hnumber : leadingNumber (bytes "-1") = none := by decide +kernel
  refine ⟨?_, fun cfg => rfl, ?_⟩
  · have hfield := field_readSections (k := .threads) hentry
    exact hfield
  · rintro (h | h)
    · exact absurd h (by decide)
    · rw [hnumber] at h
      cases h

end CppMiner.Config
