-- SUMMARY: For which values an entry of the configuration file and the flag of the same setting agree.
import CppMiner.Config.Ini
import CppMiner.Config.Validated

/-!
# Agreement of file and flags

A setting can be given by an entry of `config.ini` or by a flag. The two agree on every
value of the settings that are strings of any kind; on the others they do not where the
value is none: the file has a fallback and is validated, the flags are not
(`agree_iff`).
-/

namespace CppMiner.Config

namespace Setting

/-- The section of the entry for a setting. -/
def sectionName : Setting → Bytes
  | url | wallet | worker | password => bytes "Pool"
  | threads | algorithm | minerType | cpuAffinity | hugePages => bytes "Mining"
  | priority | printInterval => bytes "Performance"
  | logLevel | logFile => bytes "Logging"
  | reconnectDelay => bytes "Network"

/-- The key of the entry for a setting. -/
def key : Setting → Bytes
  | url => bytes "url"
  | wallet => bytes "wallet"
  | worker => bytes "worker"
  | password => bytes "password"
  | threads => bytes "threads"
  | algorithm => bytes "algorithm"
  | minerType => bytes "miner_type"
  | cpuAffinity => bytes "cpu_affinity"
  | hugePages => bytes "huge_pages"
  | priority => bytes "priority"
  | printInterval => bytes "print_hashrate_interval"
  | logLevel => bytes "level"
  | logFile => bytes "log_file"
  | reconnectDelay => bytes "reconnect_delay"

/-- The text whose only entry is the one for a setting. -/
def ini (s : Setting) (v : Bytes) : Bytes :=
  Lines.join newline [headerLine s.sectionName, entryLine s.key v]

/-- The values on which entry and flag agree. -/
def Agrees (v : Bytes) : Setting → Prop
  | url | wallet | worker | password | algorithm | logLevel | logFile => True
  | threads => (Numerals.stoul v 10).isSome
  | minerType => v ∈ [bytes "cpu", bytes "gpu"]
  | cpuAffinity | hugePages =>
    v ∈ [bytes "true", bytes "1", bytes "yes", bytes "on"] ∨
      v.map tolower ∈ [bytes "false", bytes "0", bytes "no", bytes "off"]
  | priority => v ∈ [bytes "low", bytes "normal", bytes "high"]
  | printInterval | reconnectDelay => ∃ n ∈ Numerals.stoul v 10, n % 2 ^ 32 ≠ 0

/-- What an entry sets, before it is validated. -/
def read (v : Bytes) : Setting → MinerConfig
  | url => { poolUrl := v }
  | wallet => { wallet := v }
  | worker => { worker := v }
  | password => { password := v }
  | threads => { threads := toUInt v 0 }
  | algorithm => { algorithm := v }
  | minerType => { minerType := v }
  | cpuAffinity => { cpuAffinity := toBool v true }
  | hugePages => { hugePages := toBool v true }
  | priority => { priority := v }
  | printInterval => { hashrateIntervalSec := toUInt v 5 }
  | logLevel => { logLevel := v }
  | logFile => { logFile := v }
  | reconnectDelay => { reconnectDelaySec := toUInt v 5 }

theorem key_key (s : Setting) : Key s.key := by
  cases s <;> decide

theorem parseIni_ini (s : Setting) {v : Bytes} (h : Clean v) :
    parseIni (s.ini v) = Sections.put (fun _ => none) s.sectionName s.key v := by
  have hlines : ∀ l ∈ [headerLine s.sectionName, entryLine s.key v], newline ∉ l := by
    rintro l hl
    rcases List.mem_cons.mp hl with rfl | hl
    · cases s <;> decide
    · rw [List.mem_singleton.mp hl, entryLine, List.mem_append, List.mem_cons, not_or, not_or]
      exact ⟨s.key_key.clean.line, by decide, h.line⟩
  rw [ini, parseIni_join hlines]
  simp only [List.foldl_cons, List.foldl_nil, parseLine_header, parseLine_entry s.key_key h]

theorem readSections_put (s : Setting) (v : Bytes) :
    readSections (Sections.put (fun _ => none) s.sectionName s.key v) = s.read v := by
  cases s <;> rfl

/-- The configuration that the entry for a setting gives. -/
theorem loadFromString_ini (s : Setting) {v : Bytes} (h : Clean v) :
    (loadFromString (s.ini v)).1 = (validate (s.read v)).1 := by
  rw [loadFromString, parseSections, parseIni_ini s h, readSections_put]

theorem flag_ne_config (s : Setting) : s.flag ≠ bytes "--config" := by
  cases s <;> decide

/-- The only flag is applied to the defaults. -/
theorem overlay_flag (s : Setting) (v : Bytes) (cfg : MinerConfig) :
    overlay [s.flag, v] cfg = s.assign v cfg := by
  rw [overlay, if_neg s.flag_ne_config, ofFlag_flag]
  change (s.assign v cfg >>= fun next => overlay [] next) = _
  cases s.assign v cfg <;> rfl

end Setting

/-- An environment with the given text in `config.ini`. -/
def Environment.withIni (env : Environment) (text : Bytes) : Environment :=
  { env with file := Function.update env.file defaultConfig (.text text) }

/-- Without `--config` the text of `config.ini` is loaded. -/
theorem loadConfig_withIni (env : Environment) (text : Bytes) {args : List Bytes}
    (h : configPath args = none) :
    loadConfig (env.withIni text) args = .ok (loadFromString text).1 := by
  have hfile : (env.withIni text).file defaultConfig = .text text := by
    simp [Environment.withIni]
  rw [loadConfig, loadPath, h]
  simp only [hfile, File.exists, if_true, load]

theorem loadFromString_nil : (loadFromString []).1 = {} := validate_of_valid valid_default

/-- Both ways of giving a setting, end to end. -/
theorem parseConfig_ini (env : Environment) (s : Setting) {v : Bytes} (h : Clean v) :
    parseConfig (env.withIni (s.ini v)) [] = .ok (validate (s.read v)).1 := by
  rw [parseConfig, loadConfig_withIni env _ rfl, Setting.loadFromString_ini s h]
  rfl

theorem parseConfig_flag (env : Environment) (s : Setting) (v : Bytes) :
    parseConfig (env.withIni []) [s.flag, v] = s.assign v {} := by
  have hpath : configPath [s.flag, v] = none := by
    rw [configPath, if_neg s.flag_ne_config]
    rfl
  rw [parseConfig, loadConfig_withIni env _ hpath, loadFromString_nil]
  exact s.overlay_flag v {}

/-! ## Where they agree -/

/-- The file reads more spellings as true or false, and takes the rest for true. -/
theorem toBool_eq_nextBool_iff (v : Bytes) :
    toBool v true = Setting.nextBool v ↔
      v ∈ [bytes "true", bytes "1", bytes "yes", bytes "on"] ∨
        v.map tolower ∈ [bytes "false", bytes "0", bytes "no", bytes "off"] := by
  have hnext : Setting.nextBool v = true ↔
      v ∈ [bytes "true", bytes "1", bytes "yes", bytes "on"] := by
    simp only [Setting.nextBool, Bool.or_eq_true, decide_eq_true_eq, List.mem_cons,
      List.not_mem_nil, or_false, or_assoc]
  by_cases htrue : v ∈ [bytes "true", bytes "1", bytes "yes", bytes "on"]
  · have hread : ∀ w ∈ [bytes "true", bytes "1", bytes "yes", bytes "on"],
        toBool w true = true := by
      decide
    exact iff_of_true (by rw [hread v htrue, hnext.mpr htrue]) (.inl htrue)
  · have hdisjoint : ∀ w ∈ [bytes "true", bytes "1", bytes "yes", bytes "on"],
        w ∉ [bytes "false", bytes "0", bytes "no", bytes "off"] := by
      decide
    simp only [List.mem_cons, List.not_mem_nil, or_false] at hdisjoint ⊢
    rw [Bool.eq_false_iff.mpr (mt hnext.mp htrue), or_iff_right (by simpa using htrue), toBool]
    split
    · rename_i h
      exact iff_of_false (by simp) (hdisjoint _ h)
    split
    · rename_i h
      exact iff_of_true rfl h
    · rename_i h
      exact iff_of_false (by simp) h

theorem pos_ofNat_iff (n : ℕ) : 0 < UInt32.ofNat n ↔ n % 2 ^ 32 ≠ 0 := by
  rw [UInt32.lt_iff_toNat_lt, UInt32.toNat_ofNat']
  exact Nat.pos_iff_ne_zero

/-- The values that are read alike agree if they are valid. -/
theorem agree_of_read {s : Setting} {v : Bytes} {cfg : MinerConfig} (hread : s.read v = cfg)
    (hassign : s.assign v {} = .ok cfg) :
    Except.ok (validate (s.read v)).1 = s.assign v {} ↔ cfg.Valid := by
  rw [hread, hassign, Except.ok.injEq, validate_eq_self_iff]

/-- A number is read alike by both, where it is one; the flag throws on anything else. -/
theorem agree_of_number {s : Setting} {v : Bytes} {fallback : UInt32}
    {set : UInt32 → MinerConfig} {P : UInt32 → Prop}
    (hread : s.read v = set (toUInt v fallback))
    (hassign : s.assign v {} = (do let n ← Setting.nextUInt v; return set n))
    (hvalid : ∀ n, (set n).Valid ↔ P n) :
    Except.ok (validate (s.read v)).1 = s.assign v {} ↔
      ∃ n ∈ Numerals.stoul v 10, P (UInt32.ofNat n) := by
  rw [hread, hassign, toUInt, Setting.nextUInt]
  cases Numerals.stoul v 10 with
  | none =>
    refine iff_of_false (fun h => ?_) (by simp)
    cases h
  | some n =>
    change Except.ok _ = Except.ok (set (UInt32.ofNat n)) ↔ _
    rw [Except.ok.injEq, validate_eq_self_iff, hvalid]
    simp

/-- On every value that can stand in a line, the entry of a setting and its flag agree
exactly if the value is one of those on which they do. -/
theorem agree_iff (env : Environment) (s : Setting) {v : Bytes} (h : Clean v) :
    parseConfig (env.withIni (s.ini v)) [] = parseConfig (env.withIni []) [s.flag, v] ↔
      s.Agrees v := by
  rw [parseConfig_ini env s h, parseConfig_flag]
  obtain ⟨hdonate, hpriority, htype, hinterval, hdelay⟩ := valid_default
  cases s with
  | threads =>
    have hvalid : ∀ n, ({ threads := n } : MinerConfig).Valid ↔ True := fun n =>
      iff_true_intro ⟨hdonate, hpriority, htype, hinterval, hdelay⟩
    rw [agree_of_number rfl rfl hvalid]
    simp [Setting.Agrees, Option.isSome_iff_exists]
  | cpuAffinity =>
    have hvalid : ∀ b, ({ cpuAffinity := b } : MinerConfig).Valid := fun b =>
      ⟨hdonate, hpriority, htype, hinterval, hdelay⟩
    rw [Setting.read, validate_of_valid (hvalid _), Setting.Agrees, ← toBool_eq_nextBool_iff]
    simp [Setting.assign]
  | hugePages =>
    have hvalid : ∀ b, ({ hugePages := b } : MinerConfig).Valid := fun b =>
      ⟨hdonate, hpriority, htype, hinterval, hdelay⟩
    rw [Setting.read, validate_of_valid (hvalid _), Setting.Agrees, ← toBool_eq_nextBool_iff]
    simp [Setting.assign]
  | printInterval =>
    have hvalid : ∀ n, ({ hashrateIntervalSec := n } : MinerConfig).Valid ↔ 0 < n := fun n =>
      ⟨fun h => h.hashrateIntervalSec, fun h => ⟨hdonate, hpriority, htype, h, hdelay⟩⟩
    rw [agree_of_number rfl rfl hvalid]
    simp only [pos_ofNat_iff, Setting.Agrees]
  | reconnectDelay =>
    have hvalid : ∀ n, ({ reconnectDelaySec := n } : MinerConfig).Valid ↔ 0 < n := fun n =>
      ⟨fun h => h.reconnectDelaySec, fun h => ⟨hdonate, hpriority, htype, hinterval, h⟩⟩
    rw [agree_of_number rfl rfl hvalid]
    simp only [pos_ofNat_iff, Setting.Agrees]
  | minerType =>
    exact (agree_of_read rfl rfl).trans
      ⟨fun h => h.minerType, fun h => ⟨hdonate, hpriority, h, hinterval, hdelay⟩⟩
  | priority =>
    exact (agree_of_read rfl rfl).trans
      ⟨fun h => h.priority, fun h => ⟨hdonate, h, htype, hinterval, hdelay⟩⟩
  | _ =>
    refine (agree_of_read rfl rfl).trans (iff_of_true ?_ trivial)
    exact ⟨hdonate, hpriority, htype, hinterval, hdelay⟩

theorem agree_iff_priority :
    parseConfig (bareEnvironment.withIni (Setting.ini .priority (bytes "high"))) [] =
        parseConfig (bareEnvironment.withIni []) [Setting.flag .priority, bytes "high"] ↔
      Setting.Agrees (bytes "high") .priority :=
  agree_iff bareEnvironment .priority ⟨by decide, by decide⟩

/-- `True` turns the affinity on in the file, and off as a flag. -/
theorem cpuAffinity_disagrees :
    parseConfig (bareEnvironment.withIni (Setting.ini .cpuAffinity (bytes "True"))) [] =
        .ok { cpuAffinity := true } ∧
      parseConfig (bareEnvironment.withIni []) [Setting.flag .cpuAffinity, bytes "True"] =
        .ok { cpuAffinity := false } :=
  ⟨by decide +kernel, by decide +kernel⟩

end CppMiner.Config
