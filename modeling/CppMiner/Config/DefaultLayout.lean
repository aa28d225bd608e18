-- SUMMARY: A valid configuration written in the layout of the default file is read back as it was.
import CppMiner.Config.Ini

/-!
# The layout of the default file

`render` writes a configuration in the layout of the file that `writeDefaultFile` creates;
the defaults give that file (`render_default`). What is read from the text of a valid
configuration is the configuration, whatever its strings are made of
(`loadFromString_render`).
-/

namespace CppMiner.Config

/-! ## Writing -/

def number (n : UInt32) : Bytes := Radix.encode 10 n.toNat

def boolean (b : Bool) : Bytes := if b then bytes "true" else bytes "false"

def commentLines : List Bytes :=
  [bytes "; ------------------------------------------------------------------",
   bytes "; Miner configuration file. Auto-generated with default values.",
   bytes "; Edit the values below, then restart the miner.",
   bytes "; ------------------------------------------------------------------"]

section

variable (cfg : MinerConfig)

def poolText : SectionText :=
  (bytes "Pool",
    [(bytes "url", cfg.poolUrl),
     (bytes "wallet", cfg.wallet),
     (bytes "worker", cfg.worker),
     (bytes "password", cfg.password)])

def miningText : SectionText :=
  (bytes "Mining",
    [(bytes "threads", number cfg.threads),
     (bytes "algorithm", cfg.algorithm),
     (bytes "miner_type", cfg.minerType),
     (bytes "cpu_affinity", boolean cfg.cpuAffinity),
     (bytes "huge_pages", boolean cfg.hugePages),
     (bytes "donate_level", number cfg.donateLevel)])

def performanceText : SectionText :=
  (bytes "Performance",
    [(bytes "priority", cfg.priority),
     (bytes "print_hashrate_interval", number cfg.hashrateIntervalSec),
     (bytes "benchmark", boolean cfg.benchmark)])

def loggingText : SectionText :=
  (bytes "Logging",
    [(bytes "level", cfg.logLevel),
     (bytes "log_file", cfg.logFile)])

def networkText : SectionText :=
  (bytes "Network",
    [(bytes "reconnect_delay", number cfg.reconnectDelaySec),
     (bytes "keep_alive", boolean cfg.keepAlive)])

/-- The sections of the default file, with the values of a configuration. -/
def layout : List SectionText :=
  [poolText cfg, miningText cfg, performanceText cfg, loggingText cfg, networkText cfg]

end

/-- The text of the default file, with the values of a configuration. -/
def render (cfg : MinerConfig) : Bytes :=
  Lines.join newline (commentLines ++ (layout cfg).flatMap fun sec => [] :: sectionLines sec)

/-- The default file is the layout of the defaults. -/
theorem render_default : render {} = kDefaultIni := by
  decide +kernel

/-! ## Reading back -/

/-- The strings of a configuration can stand in lines. -/
structure MinerConfig.CleanStrings (cfg : MinerConfig) : Prop where
  poolUrl : Clean cfg.poolUrl
  wallet : Clean cfg.wallet
  worker : Clean cfg.worker
  password : Clean cfg.password
  algorithm : Clean cfg.algorithm
  minerType : Clean cfg.minerType
  priority : Clean cfg.priority
  logLevel : Clean cfg.logLevel
  logFile : Clean cfg.logFile

theorem toUInt_number (n fallback : UInt32) : toUInt (number n) fallback = n := by
  have hlt : n.toNat < 2 ^ 64 := n.toNat_lt.trans (by decide)
  rw [toUInt, number, Numerals.stoul_encode hlt]
  exact UInt32.ofNat_toNat

theorem toBool_boolean (b fallback : Bool) : toBool (boolean b) fallback = b := by
  cases b <;> cases fallback <;> decide

theorem clean_number (n : UInt32) : Clean (number n) := by
  have hdigit : ∀ d < 10, isBlank (Radix.digitChar d) = false := by decide
  refine clean_of_forall fun c hc => ?_
  obtain ⟨d, hd, rfl⟩ := Radix.mem_encode (by norm_num) n.toNat hc
  exact hdigit d hd

theorem clean_boolean (b : Bool) : Clean (boolean b) := by
  cases b <;> exact ⟨by decide, by decide⟩

/-- The names of the sections with their keys. -/
def headings (secs : List SectionText) : List (Bytes × List Bytes) :=
  secs.map fun sec => (sec.1, sec.2.map Prod.fst)

theorem headings_layout (cfg : MinerConfig) : headings (layout cfg) = headings (layout {}) := rfl

/-- No heading is misread. -/
theorem headings_written :
    ∀ heading ∈ headings (layout {}), newline ∉ heading.1 ∧ (∀ key ∈ heading.2, Key key) ∧
      heading.2.Nodup ∧ heading.2 ≠ [] := by
  decide +kernel

theorem heading_mem_layout {cfg : MinerConfig} {sec : SectionText} (h : sec ∈ layout cfg) :
    (sec.1, sec.2.map Prod.fst) ∈ headings (layout {}) := by
  rw [← headings_layout cfg]
  exact List.mem_map_of_mem (f := fun sec => (sec.1, sec.2.map Prod.fst)) h

theorem names_layout (cfg : MinerConfig) : ((layout cfg).map Prod.fst).Nodup := by
  have hnames : (layout cfg).map Prod.fst = (layout {}).map Prod.fst := rfl
  rw [hnames]
  decide +kernel

theorem clean_layout {cfg : MinerConfig} (h : cfg.CleanStrings) :
    ∀ sec ∈ layout cfg, ∀ e ∈ sec.2, Clean e.2 := by
  simp only [layout, poolText, miningText, performanceText, loggingText, networkText,
    List.forall_mem_cons, List.not_mem_nil, false_implies, implies_true, and_true]
  exact ⟨⟨h.poolUrl, h.wallet, h.worker, h.password⟩,
    ⟨clean_number _, h.algorithm, h.minerType, clean_boolean _, clean_boolean _, clean_number _⟩,
    ⟨h.priority, clean_number _, clean_boolean _⟩, ⟨h.logLevel, h.logFile⟩,
    clean_number _, clean_boolean _⟩

theorem writable_layout {cfg : MinerConfig} (h : cfg.CleanStrings) :
    ∀ sec ∈ layout cfg, Writable sec := by
  intro sec hsec
  obtain ⟨hname, hkeys, -, -⟩ := headings_written _ (heading_mem_layout hsec)
  exact ⟨hname, fun e he =>
    ⟨hkeys e.1 (List.mem_map_of_mem (f := Prod.fst) he), clean_layout h sec hsec e he⟩⟩

theorem foldl_commentLines (state : Bytes × Sections) :
    commentLines.foldl parseLine state = state := by
  have hcomment : ∀ line ∈ commentLines, (trim line).head? = some ';'.toUInt8 := by
    decide +kernel
  have hpass : ∀ lines : List Bytes, (∀ line ∈ lines, (trim line).head? = some ';'.toUInt8) →
      lines.foldl parseLine state = state := by
    intro lines hlines
    induction lines with
    | nil => rfl
    | cons line lines ih =>
      rw [List.foldl_cons, parseLine_comment (hlines line (by simp))]
      exact ih fun line hline => hlines line (by simp [hline])
  exact hpass commentLines hcomment

/-- Reading what was written gives the sections. -/
theorem parseIni_render {cfg : MinerConfig} (h : cfg.CleanStrings) :
    parseIni (render cfg) = (layout cfg).foldl Sections.putAll fun _ => none := by
  have hcomments : ∀ line ∈ commentLines, newline ∉ line := by decide +kernel
  have hlines : ∀ line ∈ commentLines ++ (layout cfg).flatMap fun sec => [] :: sectionLines sec,
      newline ∉ line := by
    intro line hline
    rcases List.mem_append.mp hline with hline | hline
    · exact hcomments line hline
    · obtain ⟨sec, hsec, hline⟩ := List.mem_flatMap.mp hline
      rcases List.mem_cons.mp hline with rfl | hline
      · simp
      · exact newline_notMem_sectionLines (writable_layout h sec hsec) line hline
  rw [render, parseIni_join hlines, List.foldl_append, foldl_commentLines,
    foldl_sections (writable_layout h)]

/-- A section of the layout is there, with its entries. -/
theorem readSection_layout {cfg : MinerConfig} {sec : SectionText} (hsec : sec ∈ layout cfg)
    {read : Section → MinerConfig → MinerConfig} {base next : MinerConfig}
    (h : ∀ found : Section, (∀ e ∈ sec.2, found e.1 = some e.2) → read found base = next) :
    readSection ((layout cfg).foldl Sections.putAll fun _ => none) sec.1 read base = next := by
  obtain ⟨-, -, hkeys, hne⟩ := headings_written _ (heading_mem_layout hsec)
  have hentries : sec.2 ≠ [] := fun hnil => hne (by rw [hnil]; rfl)
  obtain ⟨found, hfound, hvalues⟩ :=
    foldl_putAll (names_layout cfg) hsec hkeys hentries fun _ => none
  rw [readSection, hfound]
  exact h found hvalues

section

variable {cfg : MinerConfig} (base : MinerConfig) {found : Section}

theorem readPool_poolText (h : ∀ e ∈ (poolText cfg).2, found e.1 = some e.2) :
    readPool found base =
      { base with
        poolUrl := cfg.poolUrl, wallet := cfg.wallet, worker := cfg.worker
        password := cfg.password } := by
  simp only [poolText, List.forall_mem_cons] at h
  obtain ⟨hurl, hwallet, hworker, hpassword, -⟩ := h
  simp [readPool, Section.get, hurl, hwallet, hworker, hpassword]

theorem readMining_miningText (h : ∀ e ∈ (miningText cfg).2, found e.1 = some e.2) :
    readMining found base =
      { base with
        threads := cfg.threads, algorithm := cfg.algorithm, minerType := cfg.minerType
        cpuAffinity := cfg.cpuAffinity, hugePages := cfg.hugePages
        donateLevel := cfg.donateLevel } := by
  simp only [miningText, List.forall_mem_cons] at h
  obtain ⟨hthreads, halgorithm, htype, haffinity, hpages, hdonate, -⟩ := h
  simp [readMining, Section.get, hthreads, halgorithm, htype, haffinity, hpages, hdonate,
    toUInt_number, toBool_boolean]

theorem readPerformance_performanceText
    (h : ∀ e ∈ (performanceText cfg).2, found e.1 = some e.2) :
    readPerformance found base =
      { base with
        priority := cfg.priority, hashrateIntervalSec := cfg.hashrateIntervalSec
        benchmark := cfg.benchmark } := by
  simp only [performanceText, List.forall_mem_cons] at h
  obtain ⟨hpriority, hinterval, hbenchmark, -⟩ := h
  simp [readPerformance, Section.get, hpriority, hinterval, hbenchmark, toUInt_number,
    toBool_boolean]

theorem readLogging_loggingText (h : ∀ e ∈ (loggingText cfg).2, found e.1 = some e.2) :
    readLogging found base = { base with logLevel := cfg.logLevel, logFile := cfg.logFile } := by
  simp only [loggingText, List.forall_mem_cons] at h
  obtain ⟨hlevel, hfile, -⟩ := h
  simp [readLogging, Section.get, hlevel, hfile]

theorem readNetwork_networkText (h : ∀ e ∈ (networkText cfg).2, found e.1 = some e.2) :
    readNetwork found base =
      { base with reconnectDelaySec := cfg.reconnectDelaySec, keepAlive := cfg.keepAlive } := by
  simp only [networkText, List.forall_mem_cons] at h
  obtain ⟨hdelay, hkeep, -⟩ := h
  simp [readNetwork, Section.get, hdelay, hkeep, toUInt_number, toBool_boolean]

end

theorem readSections_layout (cfg : MinerConfig) :
    readSections ((layout cfg).foldl Sections.putAll fun _ => none) = cfg := by
  have hpool : poolText cfg ∈ layout cfg := by simp [layout]
  have hmining : miningText cfg ∈ layout cfg := by simp [layout]
  have hperformance : performanceText cfg ∈ layout cfg := by simp [layout]
  have hlogging : loggingText cfg ∈ layout cfg := by simp [layout]
  have hnetwork : networkText cfg ∈ layout cfg := by simp [layout]
  have hname : (poolText cfg).1 = bytes "Pool" ∧ (miningText cfg).1 = bytes "Mining" ∧
      (performanceText cfg).1 = bytes "Performance" ∧ (loggingText cfg).1 = bytes "Logging" ∧
      (networkText cfg).1 = bytes "Network" := ⟨rfl, rfl, rfl, rfl, rfl⟩
  obtain ⟨hp, hm, hf, hl, hn⟩ := hname
  simp only [readSections]
  rw [← hp, readSection_layout hpool fun _ => readPool_poolText _,
    ← hm, readSection_layout hmining fun _ => readMining_miningText _,
    ← hf, readSection_layout hperformance fun _ => readPerformance_performanceText _,
    ← hl, readSection_layout hlogging fun _ => readLogging_loggingText _,
    ← hn, readSection_layout hnetwork fun _ => readNetwork_networkText _]

/-- What a valid configuration is written as is read as that configuration. -/
theorem loadFromString_render {cfg : MinerConfig} (hvalid : cfg.Valid)
    (hclean : cfg.CleanStrings) : (loadFromString (render cfg)).1 = cfg := by
  rw [loadFromString, parseSections, parseIni_render hclean, readSections_layout,
    validate_of_valid hvalid]

theorem loadFromString_render_punctuation :
    ∃ cfg : MinerConfig, cfg.poolUrl = bytes "tcp://[::1]:3333" ∧ cfg.wallet = [] ∧
      cfg.worker = bytes ";#=" ∧ cfg.threads = 4294967295 ∧
      (loadFromString (render cfg)).1 = cfg := by
  let cfg : MinerConfig :=
    { poolUrl := bytes "tcp://[::1]:3333", wallet := [], worker := bytes ";#="
      threads := 4294967295, cpuAffinity := false, priority := bytes "high" }
  have hvalid : cfg.Valid := by
    rw [MinerConfig.valid_iff]
    decide
  have hclean : cfg.CleanStrings := by
    constructor <;> decide
  exact ⟨cfg, rfl, rfl, rfl, rfl, loadFromString_render hvalid hclean⟩

end CppMiner.Config
