-- SUMMARY: `parseConfig` of the main program: where the configuration comes from, and the flags laid over it.
import CppMiner.Config.ConfigManager

/-!
# The command line

`parseConfig` loads the file of the first `--config`, else `config.ini` if there is one,
else the text embedded in the binary, and lays the flags over it in their order. The file
system and the embedded text are its environment. The first loop looks for `--config` at
every position, the second steps over the values of flags, so they can see different ones.

The value of a field after the flags is that of the last flag for it, else the one that was
loaded (`overlay_field`).
-/

namespace CppMiner.Config

/-! ## Flags -/

/-- How the process ends before `parseConfig` returns: with a code and what it wrote to
`std::cerr`, or of an exception nobody catches. -/
inductive Ended where
  | exit (code : ℕ) (message : Bytes)
  | terminate
  deriving DecidableEq

/-- The flags that set a field to a value. -/
inductive Setting where
  | url
  | wallet
  | worker
  | password
  | threads
  | algorithm
  | minerType
  | cpuAffinity
  | hugePages
  | priority
  | printInterval
  | logLevel
  | logFile
  | reconnectDelay
  deriving DecidableEq

namespace Setting

def all : List Setting :=
  [url, wallet, worker, password, threads, algorithm, minerType, cpuAffinity, hugePages,
    priority, printInterval, logLevel, logFile, reconnectDelay]

def flag : Setting → Bytes
  | url => bytes "--url"
  | wallet => bytes "--wallet"
  | worker => bytes "--worker"
  | password => bytes "--password"
  | threads => bytes "--threads"
  | algorithm => bytes "--algorithm"
  | minerType => bytes "--miner-type"
  | cpuAffinity => bytes "--cpu-affinity"
  | hugePages => bytes "--huge-pages"
  | priority => bytes "--priority"
  | printInterval => bytes "--print-interval"
  | logLevel => bytes "--log-level"
  | logFile => bytes "--log-file"
  | reconnectDelay => bytes "--reconnect-delay"

/-- The flag that an argument is. -/
def ofFlag (arg : Bytes) : Option Setting := all.find? fun s => s.flag = arg

/-- `std::stoul` of the next argument, cut to 32 bits; what it throws is not caught. -/
def nextUInt (v : Bytes) : Except Ended UInt32 :=
  match Numerals.stoul v 10 with
  | some n => .ok (UInt32.ofNat n)
  | none => .error .terminate

def nextBool (v : Bytes) : Bool :=
  v = bytes "true" || v = bytes "1" || v = bytes "yes" || v = bytes "on"

/-- What a flag does with its value. -/
def assign (v : Bytes) (cfg : MinerConfig) : Setting → Except Ended MinerConfig
  | url => return { cfg with poolUrl := v }
  | wallet => return { cfg with wallet := v }
  | worker => return { cfg with worker := v }
  | password => return { cfg with password := v }
  | threads => return { cfg with threads := ← nextUInt v }
  | algorithm => return { cfg with algorithm := v }
  | minerType => return { cfg with minerType := v }
  | cpuAffinity => return { cfg with cpuAffinity := nextBool v }
  | hugePages => return { cfg with hugePages := nextBool v }
  | priority => return { cfg with priority := v }
  | printInterval => return { cfg with hashrateIntervalSec := ← nextUInt v }
  | logLevel => return { cfg with logLevel := v }
  | logFile => return { cfg with logFile := v }
  | reconnectDelay => return { cfg with reconnectDelaySec := ← nextUInt v }

@[simp] theorem ofFlag_flag (s : Setting) : ofFlag s.flag = some s := by
  cases s <;> decide

end Setting

/-- The arguments that take no value. What is unknown is passed over. -/
def switch (arg : Bytes) (cfg : MinerConfig) : Except Ended MinerConfig :=
  if arg = bytes "--benchmark" then .ok { cfg with benchmark := true }
  else if arg = bytes "--help" ∨ arg = bytes "-h" then .error (.exit 0 [])
  else if arg = bytes "--version" ∨ arg = bytes "-v" then .error (.exit 0 [])
  else .ok cfg

/-- The loop that applies the flags to the arguments that are left. -/
def overlay : List Bytes → MinerConfig → Except Ended MinerConfig
  | [], cfg => .ok cfg
  | [arg], cfg =>
    match Setting.ofFlag arg with
    | some _ => .error (.exit 1 (bytes "Error: " ++ arg ++ bytes " requires a value.\n"))
    | none => switch arg cfg
  | arg :: v :: rest, cfg =>
    if arg = bytes "--config" then overlay rest cfg
    else
      match Setting.ofFlag arg with
      | some s => do overlay rest (← s.assign v cfg)
      | none => do overlay (v :: rest) (← switch arg cfg)

/-! ## Sources -/

/-- What the process finds: files by their paths, and the text embedded at build time. -/
structure Environment where
  file : Bytes → File
  embeddedConfig : Bytes

/-- The path after the first `--config`, at whatever position that stands. -/
def configPath : List Bytes → Option Bytes
  | arg :: path :: rest =>
    if arg = bytes "--config" then some path else configPath (path :: rest)
  | _ => none

def defaultConfig : Bytes := bytes "config.ini"

/-- `std::filesystem::exists`. -/
def File.exists : File → Bool
  | .absent _ => false
  | _ => true

/-- The path of the file that is loaded, if one is. -/
def loadPath (env : Environment) (args : List Bytes) : Option Bytes :=
  match configPath args with
  | some path => some path
  | none => if (env.file defaultConfig).exists then some defaultConfig else none

/-- The configuration before any flag is applied. -/
def loadConfig (env : Environment) (args : List Bytes) : Except Ended MinerConfig :=
  match loadPath env args with
  | some path =>
    match load path (env.file path) with
    | .ok result => .ok result.1
    | .error what =>
      .error (.exit 1 (bytes "Fatal: failed to load configuration: " ++ what ++ bytes "\n"))
  | none => .ok (loadFromString env.embeddedConfig).1

/-- The arguments are those after the name of the program. -/
def parseConfig (env : Environment) (args : List Bytes) : Except Ended MinerConfig := do
  overlay args (← loadConfig env args)

end CppMiner.Config
