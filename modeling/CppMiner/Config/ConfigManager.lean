-- SUMMARY: The configuration: its fields and defaults, the INI reader, validation, and the default file.
import Mathlib.Data.List.Induction
import Mathlib.Logic.Function.Basic
import CppMiner.Lib.Lines
import CppMiner.Lib.Numerals
import CppMiner.Lib.Trim

/-!
# Configuration

`ConfigManager` reads an INI text into sections, the sections into a `MinerConfig`, and
validates the result: what is out of range is replaced and warned about. A section is a
map from keys to values; one without entries is not there.
-/

namespace CppMiner.Config

structure MinerConfig where
  poolUrl : Bytes := bytes "stratum+tcp://pool.example.com:3333"
  wallet : Bytes := bytes "YOUR_WALLET"
  worker : Bytes := bytes "linux01"
  password : Bytes := bytes "x"
  threads : UInt32 := 0
  algorithm : Bytes := bytes "randomx"
  minerType : Bytes := bytes "cpu"
  cpuAffinity : Bool := true
  hugePages : Bool := true
  donateLevel : UInt32 := 1
  priority : Bytes := bytes "normal"
  hashrateIntervalSec : UInt32 := 5
  benchmark : Bool := false
  logLevel : Bytes := bytes "info"
  logFile : Bytes := bytes "miner.log"
  reconnectDelaySec : UInt32 := 5
  keepAlive : Bool := true
  deriving DecidableEq

/-! ## Values -/

/-- The characters that `trim` takes off. -/
def isBlank (c : UInt8) : Bool :=
  c = ' '.toUInt8 || c = '\t'.toUInt8 || c = '\r'.toUInt8 || c = '\n'.toUInt8

def trim (s : Bytes) : Bytes := Trim.trimBy isBlank s

def toBool (s : Bytes) (fallback : Bool) : Bool :=
  let v := s.map tolower
  if v = bytes "true" ∨ v = bytes "1" ∨ v = bytes "yes" ∨ v = bytes "on" then true
  else if v = bytes "false" ∨ v = bytes "0" ∨ v = bytes "no" ∨ v = bytes "off" then false
  else fallback

def toUInt (s : Bytes) (fallback : UInt32) : UInt32 :=
  match Numerals.stoul s 10 with
  | some n => UInt32.ofNat n
  | none => fallback

/-! ## Validation -/

/-- One check of `validate`: when it fails, the warning, and what is done about it. -/
structure Check where
  fails : MinerConfig → Bool
  warning : MinerConfig → Bytes
  fix : MinerConfig → MinerConfig

def Check.run (check : Check) (r : MinerConfig × List Bytes) : MinerConfig × List Bytes :=
  if check.fails r.1 then (check.fix r.1, r.2 ++ [check.warning r.1]) else r

def checkWallet : Check where
  fails cfg := cfg.wallet = [] || cfg.wallet = bytes "YOUR_WALLET"
  warning _ := bytes "Pool.wallet is not set; using placeholder wallet address."
  fix cfg := cfg

def checkDonateLevel : Check where
  fails cfg := cfg.donateLevel > 100
  warning _ := bytes "Mining.donate_level > 100, clamping to 100."
  fix cfg := { cfg with donateLevel := 100 }

def checkPriority : Check where
  fails cfg :=
    cfg.priority ≠ bytes "low" && cfg.priority ≠ bytes "normal" && cfg.priority ≠ bytes "high"
  warning _ := bytes "Performance.priority invalid, defaulting to 'normal'."
  fix cfg := { cfg with priority := bytes "normal" }

def checkMinerType : Check where
  fails cfg := cfg.minerType ≠ bytes "cpu" && cfg.minerType ≠ bytes "gpu"
  warning cfg :=
    bytes "Mining.miner_type invalid ('" ++ cfg.minerType ++ bytes "'), defaulting to 'cpu'."
  fix cfg := { cfg with minerType := bytes "cpu" }

def checkHashrateInterval : Check where
  fails cfg := cfg.hashrateIntervalSec = 0
  warning _ := bytes "Performance.print_hashrate_interval must be >0, using 5."
  fix cfg := { cfg with hashrateIntervalSec := 5 }

def checkReconnectDelay : Check where
  fails cfg := cfg.reconnectDelaySec = 0
  warning _ := bytes "Network.reconnect_delay must be >0, using 5."
  fix cfg := { cfg with reconnectDelaySec := 5 }

def checks : List Check :=
  [checkWallet, checkDonateLevel, checkPriority, checkMinerType, checkHashrateInterval,
    checkReconnectDelay]

/-- The validated configuration, with the warnings. -/
def validate (cfg : MinerConfig) : MinerConfig × List Bytes :=
  checks.foldl (fun r check => check.run r) (cfg, [])

/-- What a validated configuration satisfies. -/
structure MinerConfig.Valid (cfg : MinerConfig) : Prop where
  donateLevel : cfg.donateLevel ≤ 100
  priority : cfg.priority ∈ [bytes "low", bytes "normal", bytes "high"]
  minerType : cfg.minerType ∈ [bytes "cpu", bytes "gpu"]
  hashrateIntervalSec : 0 < cfg.hashrateIntervalSec
  reconnectDelaySec : 0 < cfg.reconnectDelaySec

theorem run_fst (check : Check) (r : MinerConfig × List Bytes) :
    (check.run r).1 = if check.fails r.1 then check.fix r.1 else r.1 := by
  unfold Check.run
  split <;> rfl

/-- Checks that pass after their own fix, and that no later fix makes fail again, all pass
after a run of them. -/
theorem fails_foldl_run {cs : List Check}
    (hself : ∀ c ∈ cs, ∀ cfg, c.fails (c.fix cfg) = false)
    (hlater : cs.Pairwise fun c d => ∀ cfg, c.fails cfg = false → c.fails (d.fix cfg) = false)
    (r : MinerConfig × List Bytes) :
    ∀ c ∈ cs, c.fails (cs.foldl (fun r check => check.run r) r).1 = false := by
  induction cs using List.reverseRecOn with
  | nil => simp
  | append_singleton cs d ih =>
    rw [List.pairwise_append] at hlater
    have hcs := ih (fun c hc => hself c (by simp [hc])) hlater.1
    intro c hc
    rw [List.foldl_append, List.foldl_cons, List.foldl_nil, run_fst]
    rcases List.mem_append.mp hc with hc | hc
    · split
      · exact hlater.2.2 c hc d (by simp) _ (hcs c hc)
      · exact hcs c hc
    · rw [List.mem_singleton] at hc
      subst hc
      split
      · exact hself c (by simp) _
      · rename_i hpass
        simpa using hpass

theorem foldl_run_of_pass {cs : List Check} {r : MinerConfig × List Bytes}
    (h : ∀ c ∈ cs, c.fails r.1 = false) : cs.foldl (fun r check => check.run r) r = r := by
  induction cs generalizing r with
  | nil => rfl
  | cons c cs ih =>
    have hrun : c.run r = r := by
      simp only [Check.run, h c (by simp), Bool.false_eq_true, if_false]
    rw [List.foldl_cons, hrun]
    exact ih fun d hd => h d (by simp [hd])

theorem MinerConfig.valid_iff (cfg : MinerConfig) :
    cfg.Valid ↔ ∀ c ∈ checks.tail, c.fails cfg = false := by
  have hpos : ∀ n : UInt32, 0 < n ↔ n ≠ 0 := fun n => by
    rw [UInt32.lt_iff_toNat_lt, ne_eq, ← UInt32.toNat_inj]
    exact Nat.pos_iff_ne_zero
  have hvalid : cfg.Valid ↔ cfg.donateLevel ≤ 100 ∧
      cfg.priority ∈ [bytes "low", bytes "normal", bytes "high"] ∧
      cfg.minerType ∈ [bytes "cpu", bytes "gpu"] ∧ 0 < cfg.hashrateIntervalSec ∧
      0 < cfg.reconnectDelaySec := by
    constructor
    · exact fun h => ⟨h.1, h.2, h.3, h.4, h.5⟩
    · rintro ⟨hdonate, hpriority, htype, hinterval, hdelay⟩
      exact ⟨hdonate, hpriority, htype, hinterval, hdelay⟩
  have hdonate : checkDonateLevel.fails cfg = false ↔ cfg.donateLevel ≤ 100 := by
    simp [checkDonateLevel]
  have hpriority : checkPriority.fails cfg = false ↔
      cfg.priority ∈ [bytes "low", bytes "normal", bytes "high"] := by
    simp [checkPriority, or_iff_not_imp_left]
  have htype : checkMinerType.fails cfg = false ↔
      cfg.minerType ∈ [bytes "cpu", bytes "gpu"] := by
    simp [checkMinerType, or_iff_not_imp_left]
  have hinterval : checkHashrateInterval.fails cfg = false ↔ 0 < cfg.hashrateIntervalSec := by
    simp [checkHashrateInterval, hpos]
  have hdelay : checkReconnectDelay.fails cfg = false ↔ 0 < cfg.reconnectDelaySec := by
    simp [checkReconnectDelay, hpos]
  have hchecks : checks.tail = [checkDonateLevel, checkPriority, checkMinerType,
      checkHashrateInterval, checkReconnectDelay] := rfl
  rw [hvalid, ← hdonate, ← hpriority, ← htype, ← hinterval, ← hdelay, hchecks]
  simp only [List.forall_mem_cons, List.not_mem_nil, false_implies, implies_true, and_true]

theorem valid_validate (cfg : MinerConfig) : (validate cfg).1.Valid := by
  rw [MinerConfig.valid_iff]
  have hrun : validate cfg =
      checks.tail.foldl (fun r check => check.run r) (checkWallet.run (cfg, [])) := rfl
  rw [hrun]
  refine fails_foldl_run ?_ ?_ _
  · simp [checks, checkDonateLevel, checkPriority, checkMinerType, checkHashrateInterval,
      checkReconnectDelay]
  · simp [checks, checkDonateLevel, checkPriority, checkMinerType, checkHashrateInterval,
      checkReconnectDelay]

/-- A valid configuration is left as it is; only the wallet may be warned about. -/
theorem validate_of_valid {cfg : MinerConfig} (h : cfg.Valid) : (validate cfg).1 = cfg := by
  rw [MinerConfig.valid_iff] at h
  have hwallet : (checkWallet.run (cfg, [])).1 = cfg := by
    rw [run_fst]
    split <;> rfl
  have hrun : validate cfg =
      checks.tail.foldl (fun r check => check.run r) (checkWallet.run (cfg, [])) := rfl
  rw [hrun, foldl_run_of_pass (by rwa [hwallet]), hwallet]

theorem validate_eq_self_iff (cfg : MinerConfig) : (validate cfg).1 = cfg ↔ cfg.Valid := by
  constructor
  · intro h
    rw [← h]
    exact valid_validate cfg
  · exact validate_of_valid

/-- A field that no fix sets stays. -/
theorem validate_frame {α : Type} (f : MinerConfig → α)
    (h : ∀ c ∈ checks, ∀ cfg, f (c.fix cfg) = f cfg) (cfg : MinerConfig) :
    f (validate cfg).1 = f cfg := by
  have hrun : ∀ (cs : List Check) (r : MinerConfig × List Bytes),
      (∀ c ∈ cs, ∀ cfg, f (c.fix cfg) = f cfg) →
        f (cs.foldl (fun r check => check.run r) r).1 = f r.1 := by
    intro cs
    induction cs with
    | nil => exact fun _ _ => rfl
    | cons c cs ih =>
      intro r hcs
      rw [List.foldl_cons, ih _ fun d hd => hcs d (by simp [hd]), run_fst]
      split
      · exact hcs c (by simp) _
      · rfl
  exact hrun checks (cfg, []) h

/-- Every default passes the checks. -/
theorem valid_default : ({} : MinerConfig).Valid := by
  rw [MinerConfig.valid_iff]
  decide

/-! ## INI texts -/

abbrev Section := Bytes → Option Bytes

abbrev Sections := Bytes → Option Section

/-- `result[section][key] = value`. -/
def Sections.put (sections : Sections) (name key value : Bytes) : Sections :=
  Function.update sections name
    (some (Function.update ((sections name).getD fun _ => none) key (some value)))

/-- One line, with the section it stands in and the sections read before it. -/
def parseLine (state : Bytes × Sections) (line : Bytes) : Bytes × Sections :=
  let trimmed := trim line
  if trimmed = [] ∨ trimmed.head? = some ';'.toUInt8 ∨ trimmed.head? = some '#'.toUInt8 then state
  else if trimmed.head? = some '['.toUInt8 ∧ trimmed.getLast? = some ']'.toUInt8 then
    ((trimmed.drop 1).take (trimmed.length - 2), state.2)
  else
    match trimmed.dropWhile (· ≠ '='.toUInt8) with
    | [] => state -- malformed line, skip rather than hard-fail
    | _ :: value =>
      let key := trimmed.takeWhile (· ≠ '='.toUInt8)
      (state.1, state.2.put state.1 (trim key) (trim value))

/-- The lines that `std::getline` gives; a last one without its newline is there if it is
not empty. -/
def getlines (text : Bytes) : List Bytes :=
  Lines.segments newline text ++
    if Lines.remainder newline text = [] then [] else [Lines.remainder newline text]

def parseIni (text : Bytes) : Sections :=
  ((getlines text).foldl parseLine ([], fun _ => none)).2

def Section.get (sec : Section) (key fallback : Bytes) : Bytes := (sec key).getD fallback

/-- Reading one section, if it is there. -/
def readSection (sections : Sections) (name : Bytes) (read : Section → MinerConfig → MinerConfig)
    (cfg : MinerConfig) : MinerConfig :=
  match sections name with
  | some sec => read sec cfg
  | none => cfg

/-- A field that a section does not have stays. -/
theorem readSection_frame {α : Type} (f : MinerConfig → α)
    (read : Section → MinerConfig → MinerConfig) (h : ∀ sec cfg, f (read sec cfg) = f cfg)
    (sections : Sections) (name : Bytes) (cfg : MinerConfig) :
    f (readSection sections name read cfg) = f cfg := by
  unfold readSection
  split
  · exact h _ cfg
  · rfl

def readPool (pool : Section) (cfg : MinerConfig) : MinerConfig :=
  { cfg with
    poolUrl := pool.get (bytes "url") cfg.poolUrl
    wallet := pool.get (bytes "wallet") cfg.wallet
    worker := pool.get (bytes "worker") cfg.worker
    password := pool.get (bytes "password") cfg.password }

def readMining (mining : Section) (cfg : MinerConfig) : MinerConfig :=
  { cfg with
    threads := toUInt (mining.get (bytes "threads") (bytes "0")) 0
    algorithm := mining.get (bytes "algorithm") cfg.algorithm
    minerType := mining.get (bytes "miner_type") cfg.minerType
    cpuAffinity := toBool (mining.get (bytes "cpu_affinity") (bytes "true")) true
    hugePages := toBool (mining.get (bytes "huge_pages") (bytes "true")) true
    donateLevel := toUInt (mining.get (bytes "donate_level") (bytes "1")) 1 }

def readPerformance (perf : Section) (cfg : MinerConfig) : MinerConfig :=
  { cfg with
    priority := perf.get (bytes "priority") cfg.priority
    hashrateIntervalSec := toUInt (perf.get (bytes "print_hashrate_interval") (bytes "5")) 5
    benchmark := toBool (perf.get (bytes "benchmark") (bytes "false")) false }

def readLogging (log : Section) (cfg : MinerConfig) : MinerConfig :=
  { cfg with
    logLevel := log.get (bytes "level") cfg.logLevel
    logFile := log.get (bytes "log_file") cfg.logFile }

def readNetwork (net : Section) (cfg : MinerConfig) : MinerConfig :=
  { cfg with
    reconnectDelaySec := toUInt (net.get (bytes "reconnect_delay") (bytes "5")) 5
    keepAlive := toBool (net.get (bytes "keep_alive") (bytes "true")) true }

/-- The sections, read over the defaults; not validated yet. -/
def readSections (sections : Sections) : MinerConfig :=
  let cfg : MinerConfig := {}
  let cfg := readSection sections (bytes "Pool") readPool cfg
  let cfg := readSection sections (bytes "Mining") readMining cfg
  let cfg := readSection sections (bytes "Performance") readPerformance cfg
  let cfg := readSection sections (bytes "Logging") readLogging cfg
  readSection sections (bytes "Network") readNetwork cfg

def parseSections (sections : Sections) : MinerConfig × List Bytes :=
  validate (readSections sections)

/-- The configuration that a text gives, with `lastWarnings`. -/
def loadFromString (iniContent : Bytes) : MinerConfig × List Bytes :=
  parseSections (parseIni iniContent)

/-! ## Files -/

def kDefaultIni : Bytes :=
  Lines.join newline
    [bytes "; ------------------------------------------------------------------",
     bytes "; Miner configuration file. Auto-generated with default values.",
     bytes "; Edit the values below, then restart the miner.",
     bytes "; ------------------------------------------------------------------",
     bytes "",
     bytes "[Pool]",
     bytes "url=stratum+tcp://pool.example.com:3333",
     bytes "wallet=YOUR_WALLET",
     bytes "worker=linux01",
     bytes "password=x",
     bytes "",
     bytes "[Mining]",
     bytes "threads=0",
     bytes "algorithm=randomx",
     bytes "miner_type=cpu",
     bytes "cpu_affinity=true",
     bytes "huge_pages=true",
     bytes "donate_level=1",
     bytes "",
     bytes "[Performance]",
     bytes "priority=normal",
     bytes "print_hashrate_interval=5",
     bytes "benchmark=false",
     bytes "",
     bytes "[Logging]",
     bytes "level=info",
     bytes "log_file=miner.log",
     bytes "",
     bytes "[Network]",
     bytes "reconnect_delay=5",
     bytes "keep_alive=true"]

/-- What is found at a path. -/
inductive File where
  | absent (creatable : Bool)
  | unreadable
  | text (contents : Bytes)

/-- Throws `std::runtime_error`, here its message, if a file can be neither read nor
created. -/
def load (path : Bytes) : File → Except Bytes (MinerConfig × List Bytes)
  | .absent true => .ok (loadFromString kDefaultIni)
  | .absent false => .error (bytes "ConfigManager: failed to create " ++ path)
  | .unreadable => .error (bytes "ConfigManager: failed to open " ++ path)
  | .text contents => .ok (loadFromString contents)

end CppMiner.Config
