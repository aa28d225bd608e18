-- SUMMARY: Which configurations that `parseConfig` returns are valid, and name an algorithm that exists.
import CppMiner.Config.CommandLine
import CppMiner.Hash.HashAlgorithm
import CppMiner.Lib.Assignments
import CppMiner.Lib.Loops

/-!
# Validated configurations

A configuration that is loaded is validated, but the flags are laid over it afterwards, and
the name of the algorithm is not looked at before a worker thread creates it. So what
`parseConfig` returns is as valid as the last values of the flags are
(`valid_parseConfig_iff`).
-/

namespace CppMiner.Config

/-! ## The last value of a flag -/

/-- The flags that are applied, in their order, with their values. -/
def assignments : List Bytes → List (Setting × Bytes)
  | arg :: v :: rest =>
    if arg = bytes "--config" then assignments rest
    else
      match Setting.ofFlag arg with
      | some s => (s, v) :: assignments rest
      | none => assignments (v :: rest)
  | _ => []

/-- The value that is given to a flag last. -/
def lastValue (s : Setting) (args : List Bytes) : Option Bytes :=
  ((assignments args).reverse.find? fun a => a.1 = s).map (·.2)

/-- What a flag sets, where its value can be read. -/
def Setting.apply (v : Bytes) (cfg : MinerConfig) : Setting → MinerConfig
  | url => { cfg with poolUrl := v }
  | wallet => { cfg with wallet := v }
  | worker => { cfg with worker := v }
  | password => { cfg with password := v }
  | threads => { cfg with threads := toUInt v 0 }
  | algorithm => { cfg with algorithm := v }
  | minerType => { cfg with minerType := v }
  | cpuAffinity => { cfg with cpuAffinity := nextBool v }
  | hugePages => { cfg with hugePages := nextBool v }
  | priority => { cfg with priority := v }
  | printInterval => { cfg with hashrateIntervalSec := toUInt v 0 }
  | logLevel => { cfg with logLevel := v }
  | logFile => { cfg with logFile := v }
  | reconnectDelay => { cfg with reconnectDelaySec := toUInt v 0 }

variable {cfg cfg' : MinerConfig} {args : List Bytes} {s : Setting}

theorem toUInt_of_nextUInt {v : Bytes} {n : UInt32} (h : Setting.nextUInt v = .ok n)
    (fallback : UInt32) : toUInt v fallback = n := by
  unfold Setting.nextUInt at h
  unfold toUInt
  cases hm : Numerals.stoul v 10 with
  | none =>
    rw [hm] at h
    cases h
  | some m =>
    rw [hm] at h
    cases h
    rfl

theorem apply_of_assign {v : Bytes} (h : s.assign v cfg = .ok cfg') : cfg' = s.apply v cfg := by
  have hnumber : ∀ {update : UInt32 → MinerConfig},
      (do let n ← Setting.nextUInt v; return update n) = Except.ok (ε := Ended) cfg' →
        cfg' = update (toUInt v 0) := by
    intro update h
    obtain ⟨n, hn, h⟩ := Loops.bind_eq_ok.mp h
    rw [toUInt_of_nextUInt hn]
    cases h
    rfl
  cases s with
  | threads => exact hnumber h
  | printInterval => exact hnumber h
  | reconnectDelay => exact hnumber h
  | _ =>
    cases h
    rfl

/-- `--benchmark` sets the field of that name, and no other argument without a value sets
one. -/
theorem benchmark_of_switch {arg : Bytes} (h : switch arg cfg = .ok cfg') :
    ∃ b, cfg' = { cfg with benchmark := b } := by
  unfold switch at h
  split at h
  · cases h
    exact ⟨true, rfl⟩
  split at h
  · cases h
  split at h
  · cases h
  · cases h
    exact ⟨cfg.benchmark, rfl⟩

section Field

variable {α : Type}

/-- A field other than `benchmark` changes with the flags, one after the other. -/
theorem overlay_foldl (f : MinerConfig → α) (step : α → Setting × Bytes → α)
    (happly : ∀ s v cfg, f (Setting.apply v cfg s) = step (f cfg) (s, v))
    (hbenchmark : ∀ cfg b, f { cfg with benchmark := b } = f cfg)
    (h : overlay args cfg = .ok cfg') : f cfg' = (assignments args).foldl step (f cfg) := by
  have hswitch : ∀ {arg cfg cfg'}, switch arg cfg = .ok cfg' → f cfg' = f cfg := by
    intro arg cfg cfg' h
    obtain ⟨b, rfl⟩ := benchmark_of_switch h
    exact hbenchmark cfg b
  -- along the loop over the arguments; only a flag with a value gets to `apply`
  induction args, cfg using overlay.induct with
  | case1 cfg =>
    cases h
    rfl
  | case2 arg cfg s hs =>
    simp only [overlay, hs] at h
    cases h
  | case3 arg cfg hs =>
    simp only [overlay, hs] at h
    exact hswitch h
  | case4 v rest cfg ih =>
    rw [overlay, if_pos rfl] at h
    rw [assignments, if_pos rfl]
    exact ih h
  | case5 arg v rest cfg hconfig s hs ih =>
    simp only [overlay, if_neg hconfig, hs] at h
    obtain ⟨next, hnext, h⟩ := Loops.bind_eq_ok.mp h
    simp only [assignments, if_neg hconfig, hs, List.foldl_cons]
    rw [← happly s v cfg, ← apply_of_assign hnext]
    exact ih next h
  | case6 arg v rest cfg hconfig hs ih =>
    simp only [overlay, if_neg hconfig, hs] at h
    obtain ⟨next, hnext, h⟩ := Loops.bind_eq_ok.mp h
    simp only [assignments, if_neg hconfig, hs]
    rw [← hswitch hnext]
    exact ih next h

/-- A field that one flag sets has the last value given to that flag. -/
theorem overlay_field (f : MinerConfig → α) (s : Setting) (value : Bytes → α)
    (hself : ∀ v cfg, f (s.apply v cfg) = value v)
    (hother : ∀ t ≠ s, ∀ v cfg, f (t.apply v cfg) = f cfg)
    (hbenchmark : ∀ cfg b, f { cfg with benchmark := b } = f cfg)
    (h : overlay args cfg = .ok cfg') : f cfg' = ((lastValue s args).map value).getD (f cfg) := by
  have hstep : ∀ t v cfg, f (Setting.apply v cfg t) =
      if decide (t = s) then value v else f cfg := by
    intro t v cfg
    by_cases ht : t = s
    · rw [if_pos (by simpa using ht), ht, hself v cfg]
    · rw [if_neg (by simpa using ht), hother t ht v cfg]
  have hfold := overlay_foldl f
    (fun x (a : Setting × Bytes) => if decide (a.1 = s) then value a.2 else x) hstep hbenchmark h
  rw [Assignments.foldl_assign (fun a : Setting × Bytes => decide (a.1 = s)) (fun a => value a.2)]
    at hfold
  rw [hfold, lastValue, Option.map_map]
  rfl

/-- A field that no flag sets stays. -/
theorem overlay_frame (f : MinerConfig → α)
    (happly : ∀ s v cfg, f (Setting.apply v cfg s) = f cfg)
    (hbenchmark : ∀ cfg b, f { cfg with benchmark := b } = f cfg)
    (h : overlay args cfg = .ok cfg') : f cfg' = f cfg := by
  rw [overlay_foldl f (fun x _ => x) happly hbenchmark h]
  exact List.foldl_fixed _

end Field

/-! ## What is loaded -/

variable {env : Environment}

/-- The text that is read from a file. One that is created has the default text. -/
def File.contents : File → Bytes
  | .text contents => contents
  | _ => kDefaultIni

/-- The text that the configuration is read from. -/
def configText (env : Environment) (args : List Bytes) : Bytes :=
  match loadPath env args with
  | some path => (env.file path).contents
  | none => env.embeddedConfig

theorem load_eq {path : Bytes} {file : File} {r : MinerConfig × List Bytes}
    (h : load path file = .ok r) : r = loadFromString file.contents := by
  cases file with
  | absent creatable =>
    cases creatable with
    | true => exact (Except.ok.inj h).symm
    | false => cases h
  | unreadable => cases h
  | text contents => exact (Except.ok.inj h).symm

theorem loadConfig_eq (h : loadConfig env args = .ok cfg) :
    cfg = (loadFromString (configText env args)).1 := by
  cases hpath : loadPath env args with
  | some path =>
    simp only [loadConfig, configText, hpath] at h ⊢
    cases hload : load path (env.file path) with
    | ok result =>
      rw [hload] at h
      rw [← load_eq hload]
      exact (Except.ok.inj h).symm
    | error message =>
      rw [hload] at h
      cases h
  | none =>
    simp only [loadConfig, configText, hpath] at h ⊢
    exact (Except.ok.inj h).symm

theorem valid_loadFromString (text : Bytes) : (loadFromString text).1.Valid := valid_validate _

/-- The entry of a text for a key of a section. -/
def entry (text name key : Bytes) : Option Bytes := parseIni text name >>= fun sec => sec key

theorem algorithm_loadFromString (text : Bytes) :
    (loadFromString text).1.algorithm =
      (entry text (bytes "Mining") (bytes "algorithm")).getD (bytes "randomx") := by
  have hvalidate := validate_frame MinerConfig.algorithm
    (by simp [checks, checkWallet, checkDonateLevel, checkPriority, checkMinerType,
      checkHashrateInterval, checkReconnectDelay])
    (readSections (parseIni text))
  rw [loadFromString, parseSections, hvalidate, readSections,
    readSection_frame MinerConfig.algorithm readNetwork fun _ _ => rfl,
    readSection_frame MinerConfig.algorithm readLogging fun _ _ => rfl,
    readSection_frame MinerConfig.algorithm readPerformance fun _ _ => rfl]
  have hpool : (readSection (parseIni text) (bytes "Pool") readPool {}).algorithm =
      bytes "randomx" :=
    readSection_frame MinerConfig.algorithm readPool (fun _ _ => rfl) _ _ _
  generalize readSection (parseIni text) (bytes "Pool") readPool {} = cfg at hpool ⊢
  rw [readSection, entry]
  cases parseIni text (bytes "Mining") with
  | none => exact hpool
  | some mining =>
    rw [← hpool]
    rfl

/-! ## Validity -/

/-- The names that `createAlgorithm` knows, in lower case. -/
def algorithmNames : List Bytes :=
  [bytes "sha256d", bytes "sha256", bytes "randomx", bytes "cryptonight", bytes "cn"]

theorem createAlgorithm_ok_iff (name : Bytes) :
    (∃ algorithm, Hash.createAlgorithm name = .ok algorithm) ↔
      name.map tolower ∈ algorithmNames := by
  have hnames : name.map tolower ∈ algorithmNames ↔
      (name.map tolower = bytes "sha256d" ∨ name.map tolower = bytes "sha256" ∨
        name.map tolower = bytes "randomx") ∨
      name.map tolower = bytes "cryptonight" ∨ name.map tolower = bytes "cn" := by
    simp only [algorithmNames, List.mem_cons, List.not_mem_nil, or_false, or_assoc]
  rw [hnames, Hash.createAlgorithm]
  split
  · rename_i h
    exact iff_of_true ⟨_, rfl⟩ (.inl h)
  split
  · rename_i h
    exact iff_of_true ⟨_, rfl⟩ (.inr h)
  · rename_i h h'
    exact iff_of_false (by simp) fun hor => hor.elim h h'

/-- The last values that the flags of validated fields are given, if they are given any,
are valid. -/
structure FlagsValid (args : List Bytes) : Prop where
  priority : ∀ v ∈ lastValue .priority args, v ∈ [bytes "low", bytes "normal", bytes "high"]
  minerType : ∀ v ∈ lastValue .minerType args, v ∈ [bytes "cpu", bytes "gpu"]
  printInterval : ∀ v ∈ lastValue .printInterval args, 0 < toUInt v 0
  reconnectDelay : ∀ v ∈ lastValue .reconnectDelay args, 0 < toUInt v 0

/-- The name that is given for the algorithm: by the last flag, else by the entry of the
text, else the default. -/
def algorithmName (env : Environment) (args : List Bytes) : Bytes :=
  (lastValue .algorithm args).getD
    ((entry (configText env args) (bytes "Mining") (bytes "algorithm")).getD (bytes "randomx"))

/-- A value that is laid over a valid one has to be valid itself. -/
theorem getD_map_iff {α β : Type} (P : β → Prop) {x : Option α} {g : α → β} {d : β} (hd : P d) :
    P ((x.map g).getD d) ↔ ∀ v ∈ x, P (g v) := by
  cases x <;> simp [hd]

/-- What `parseConfig` returns is valid and names an algorithm exactly if the last values
of the flags are valid, and the name that is given for the algorithm is one. -/
theorem valid_parseConfig_iff (h : parseConfig env args = .ok cfg) :
    (cfg.Valid ∧ ∃ algorithm, Hash.createAlgorithm cfg.algorithm = .ok algorithm) ↔
      FlagsValid args ∧ (algorithmName env args).map tolower ∈ algorithmNames := by
  obtain ⟨base, hbase, hoverlay⟩ := Loops.bind_eq_ok.mp h
  have hvalid : base.Valid := by
    rw [loadConfig_eq hbase]
    exact valid_loadFromString _
  have hdonate := overlay_frame MinerConfig.donateLevel (fun s _ _ => by cases s <;> rfl)
    (fun _ _ => rfl) hoverlay
  have hpriority := overlay_field MinerConfig.priority .priority id (fun _ _ => rfl)
    (fun t ht _ _ => by cases t <;> first | rfl | exact absurd rfl ht) (fun _ _ => rfl) hoverlay
  have htype := overlay_field MinerConfig.minerType .minerType id (fun _ _ => rfl)
    (fun t ht _ _ => by cases t <;> first | rfl | exact absurd rfl ht) (fun _ _ => rfl) hoverlay
  have halgorithm := overlay_field MinerConfig.algorithm .algorithm id (fun _ _ => rfl)
    (fun t ht _ _ => by cases t <;> first | rfl | exact absurd rfl ht) (fun _ _ => rfl) hoverlay
  have hinterval := overlay_field MinerConfig.hashrateIntervalSec .printInterval (toUInt · 0)
    (fun _ _ => rfl) (fun t ht _ _ => by cases t <;> first | rfl | exact absurd rfl ht)
    (fun _ _ => rfl) hoverlay
  have hdelay := overlay_field MinerConfig.reconnectDelaySec .reconnectDelay (toUInt · 0)
    (fun _ _ => rfl) (fun t ht _ _ => by cases t <;> first | rfl | exact absurd rfl ht)
    (fun _ _ => rfl) hoverlay
  -- `validate` has accepted the file, so that only the values of the flags can break it
  have hvalid_iff : cfg.Valid ↔ FlagsValid args := by
    have hp := getD_map_iff (· ∈ [bytes "low", bytes "normal", bytes "high"]) (g := id)
      (x := lastValue .priority args) hvalid.priority
    have ht := getD_map_iff (· ∈ [bytes "cpu", bytes "gpu"]) (g := id)
      (x := lastValue .minerType args) hvalid.minerType
    have hi := getD_map_iff (0 < ·) (g := (toUInt · 0)) (x := lastValue .printInterval args)
      hvalid.hashrateIntervalSec
    have hd := getD_map_iff (0 < ·) (g := (toUInt · 0)) (x := lastValue .reconnectDelay args)
      hvalid.reconnectDelaySec
    rw [← hpriority] at hp
    rw [← htype] at ht
    rw [← hinterval] at hi
    rw [← hdelay] at hd
    constructor
    · exact fun h => ⟨hp.mp h.priority, ht.mp h.minerType, hi.mp h.hashrateIntervalSec,
        hd.mp h.reconnectDelaySec⟩
    · intro h
      exact ⟨hdonate ▸ hvalid.donateLevel, hp.mpr h.priority, ht.mpr h.minerType,
        hi.mpr h.printInterval, hd.mpr h.reconnectDelay⟩
  rw [Option.map_id, id, loadConfig_eq hbase, algorithm_loadFromString, ← algorithmName]
    at halgorithm
  rw [createAlgorithm_ok_iff, halgorithm, hvalid_iff]

/-- A directory without a configuration file, and an empty embedded text. -/
def bareEnvironment : Environment where
  file _ := .absent true
  embeddedConfig := []

theorem valid_parseConfig_iff_high :
    (({ priority := bytes "high" } : MinerConfig).Valid ∧
        ∃ algorithm, Hash.createAlgorithm (bytes "randomx") = .ok algorithm) ↔
      FlagsValid [bytes "--priority", bytes "high"] ∧
        (algorithmName bareEnvironment [bytes "--priority", bytes "high"]).map tolower ∈
          algorithmNames := by
  have h : parseConfig bareEnvironment [bytes "--priority", bytes "high"] =
      .ok { priority := bytes "high" } := by
    rfl
  exact valid_parseConfig_iff h

/-- A priority that there is not, and an algorithm that there is not, come through. -/
theorem parseConfig_invalid :
    (∃ cfg, parseConfig bareEnvironment [bytes "--priority", bytes "urgent"] = .ok cfg ∧
        ¬ cfg.Valid) ∧
      ∃ cfg, parseConfig bareEnvironment [bytes "--algorithm", bytes "scrypt"] = .ok cfg ∧
        ∀ algorithm, Hash.createAlgorithm cfg.algorithm ≠ .ok algorithm := by
  refine ⟨⟨{ priority := bytes "urgent" }, rfl, fun h => ?_⟩,
    { algorithm := bytes "scrypt" }, rfl, fun algorithm => ?_⟩
  · exact absurd h.priority (by decide)
  · have herror : Hash.createAlgorithm (bytes "scrypt") =
        .error (bytes "Unknown mining algorithm: scrypt") := rfl
    simp [herror]

end CppMiner.Config
