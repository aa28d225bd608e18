-- SUMMARY: The logger: levels, the two streams, and `log` as the writes it makes under its mutex.
import CppMiner.Lib.Bytes
import CppMiner.Lib.Lines
import CppMiner.Lib.Monitor

/-!
# The logger

`log` drops a message below the threshold, and else writes it twice under the mutex:
coloured to the console, plain to the file. Each `<<` is a write of its own. The buffer of
the file stream, which `flush` empties at the end, is left out: the file is what was handed
to its stream. The threshold is the one of the constructor; nothing calls `setLevel`.

The clock is read under the mutex. What a call will read there is part of the call.
-/

namespace CppMiner.Logger

open Linearizable (Object)
open Monitor (Method)

/-! ## Levels -/

inductive Level where
  | debug
  | info
  | warn
  | error
  deriving DecidableEq

/-- `static_cast<int>(level)`. -/
def Level.toInt : Level → ℕ
  | .debug => 0
  | .info => 1
  | .warn => 2
  | .error => 3

def levelToString : Level → Bytes
  | .debug => bytes "DEBUG"
  | .info => bytes "INFO"
  | .warn => bytes "WARN"
  | .error => bytes "ERROR"

def levelFromString (text : Bytes) : Level :=
  let lower := text.map tolower
  if lower = bytes "debug" then .debug
  else if lower = bytes "warn" ∨ lower = bytes "warning" then .warn
  else if lower = bytes "error" then .error
  else .info

/-- The tag of a level is a name for it. -/
theorem levelFromString_levelToString (level : Level) :
    levelFromString (levelToString level) = level := by
  cases level <;> decide

/-! ## Lines -/

/-- The byte that begins a colour code. -/
def escape : UInt8 := 27

def kReset : Bytes := escape :: bytes "[0m"
def kGray : Bytes := escape :: bytes "[90m"
def kCyan : Bytes := escape :: bytes "[36m"
def kYellow : Bytes := escape :: bytes "[33m"
def kRed : Bytes := escape :: bytes "[31m"

def colorFor : Level → Bytes
  | .debug => kGray
  | .info => kCyan
  | .warn => kYellow
  | .error => kRed

/-- A call of `log`, with the time it will read. -/
structure Entry where
  time : Bytes
  level : Level
  message : Bytes
  deriving DecidableEq

namespace Entry

variable (e : Entry)

/-- What is written to the console, piece by piece. -/
def consolePieces : List Bytes :=
  [kGray, bytes "[", e.time, bytes "] ", kReset, colorFor e.level, bytes "[",
    levelToString e.level, bytes "]", kReset, bytes " ", e.message, [newline]]

/-- What is written to the file before the end of the line. -/
def filePieces : List Bytes :=
  [bytes "[", e.time, bytes "] [", levelToString e.level, bytes "] ", e.message]

/-- The line on the console. -/
def colored : Bytes :=
  kGray ++ bytes "[" ++ e.time ++ bytes "] " ++ kReset ++ colorFor e.level ++ bytes "[" ++
    levelToString e.level ++ bytes "]" ++ kReset ++ bytes " " ++ e.message

/-- The line in the file. -/
def line : Bytes :=
  bytes "[" ++ e.time ++ bytes "] [" ++ levelToString e.level ++ bytes "] " ++ e.message

theorem flatten_consolePieces : e.consolePieces.flatten = e.colored ++ [newline] := by
  simp [consolePieces, colored]

theorem flatten_filePieces : e.filePieces.flatten = e.line := by
  simp [filePieces, line]

end Entry

/-! ## The streams -/

structure Streams where
  cout : Bytes := []
  file : Bytes := []
  deriving DecidableEq

namespace Streams

def putConsole (piece : Bytes) (s : Streams) : Streams := { s with cout := s.cout ++ piece }

def putFile (piece : Bytes) (s : Streams) : Streams := { s with file := s.file ++ piece }

theorem writeAll_putConsole (pieces : List Bytes) (s : Streams) :
    Monitor.writeAll (pieces.map putConsole) s = { s with cout := s.cout ++ pieces.flatten } := by
  induction pieces generalizing s with
  | nil => simp [Monitor.writeAll]
  | cons piece pieces ih =>
    refine (ih (s.putConsole piece)).trans ?_
    simp [putConsole]

theorem writeAll_putFile (pieces : List Bytes) (s : Streams) :
    Monitor.writeAll (pieces.map putFile) s = { s with file := s.file ++ pieces.flatten } := by
  induction pieces generalizing s with
  | nil => simp [Monitor.writeAll]
  | cons piece pieces ih =>
    refine (ih (s.putFile piece)).trans ?_
    simp [putFile]

end Streams

/-- The message is not dropped. -/
def Entry.Passes (minLevel : Level) (e : Entry) : Prop := minLevel.toInt ≤ e.level.toInt

instance (minLevel : Level) (e : Entry) : Decidable (e.Passes minLevel) :=
  inferInstanceAs (Decidable (minLevel.toInt ≤ e.level.toInt))

def log (minLevel : Level) (e : Entry) : Method Streams Unit :=
  if e.level.toInt < minLevel.toInt then .peek fun _ => ()
  else
    .unique (e.consolePieces.map Streams.putConsole ++ e.filePieces.map Streams.putFile)
      (Streams.putFile [newline]) ()

/-! ## What a call does -/

theorem log_of_passes {minLevel : Level} {e : Entry} (h : e.Passes minLevel) :
    log minLevel e =
      .unique (e.consolePieces.map Streams.putConsole ++ e.filePieces.map Streams.putFile)
        (Streams.putFile [newline]) () :=
  if_neg (Nat.not_lt.mpr h)

theorem log_of_not_passes {minLevel : Level} {e : Entry} (h : ¬ e.Passes minLevel) :
    log minLevel e = .peek fun _ => () :=
  if_pos (Nat.lt_of_not_le h)

theorem effect_log_of_passes {minLevel : Level} {e : Entry} (h : e.Passes minLevel)
    (s : Streams) : (log minLevel e).effect s =
      { cout := s.cout ++ Lines.join newline [e.colored]
        file := s.file ++ Lines.join newline [e.line] } := by
  rw [log_of_passes h, Method.effect, Monitor.writeAll, List.foldl_append]
  change Streams.putFile [newline] (Monitor.writeAll _ (Monitor.writeAll _ s)) = _
  rw [Streams.writeAll_putConsole, Streams.writeAll_putFile, e.flatten_consolePieces,
    e.flatten_filePieces]
  simp [Streams.putFile]

theorem effect_log_of_not_passes {minLevel : Level} {e : Entry} (h : ¬ e.Passes minLevel)
    (s : Streams) : (log minLevel e).effect s = s := by
  rw [log_of_not_passes h, Method.effect]

theorem hidden_log (minLevel : Level) : Monitor.Hidden (log minLevel) :=
  fun _ _ _ _ _ _ _ _ _ _ _ => rfl

/-- The streams after calls that are made one after another. -/
theorem value_log (minLevel : Level) {ι : Type*} (s : Streams) (performed : List (ι × Entry)) :
    (Monitor.object s (log minLevel)).value performed =
      let kept := performed.filter fun p => p.2.Passes minLevel
      { cout := s.cout ++ Lines.join newline (kept.map fun p => p.2.colored)
        file := s.file ++ Lines.join newline (kept.map fun p => p.2.line) } := by
  induction performed using List.reverseRecOn with
  | nil => simp [Object.value, Monitor.object]
  | append_singleton performed p ih =>
    rw [Object.value_append_singleton, ih]
    by_cases h : p.2.Passes minLevel
    · refine (effect_log_of_passes h _).trans ?_
      simp [h, Lines.join_append]
    · refine (effect_log_of_not_passes h _).trans ?_
      simp [h]

end CppMiner.Logger
