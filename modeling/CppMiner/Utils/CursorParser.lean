-- SUMMARY: The parser over its cursor: every function as the code has it, on `pos_` and the text.
import CppMiner.Lib.Cursor
import CppMiner.Utils.MiniJson

/-!
# The parser and its cursor

`MiniJson` represents the parser's cursor by the text that is left. Here the functions of
`Parser` are given as the code has them: they read `text_` at `pos_`, or one further, and leave
a position. A position is given back also when a function fails. Reading at or beyond the end
is a fault, and the fuel bounds every loop and every call.
-/

namespace CppMiner.Json.CursorParser

open Cursor (Fault charAt scan)
open CppMiner.Json.Parser (unescape isNumberChar)

variable (text : Bytes)

def skipWhitespace (fuel pos : ℕ) : Except Fault ℕ := scan text isspace fuel pos

def consume (expected : UInt8) (fuel pos : ℕ) : Except Fault (Bool × ℕ) := do
  let pos ← skipWhitespace text fuel pos
  if pos < text.length then
    let c ← charAt text pos
    if c = expected then return (true, pos + 1) else return (false, pos)
  else return (false, pos)

/-- The loop of `parseRawString`, with what it has read so far. -/
def rawString : ℕ → Bytes → ℕ → Except Fault (Bytes × ℕ)
  | 0, _, _ => .error .outOfFuel
  | fuel + 1, out, pos =>
    if pos < text.length then do
      let c ← charAt text pos
      if c = '"'.toUInt8 then return (out, pos)
      else if c = '\\'.toUInt8 ∧ pos + 1 < text.length then
        let next ← charAt text (pos + 1)
        rawString fuel (out ++ [unescape next]) (pos + 2)
      else rawString fuel (out ++ [c]) (pos + 1)
    else return (out, pos)

def parseRawString (fuel pos : ℕ) : Except Fault (Option Bytes × ℕ) := do
  let pos ← skipWhitespace text fuel pos
  if text.length ≤ pos then return (none, pos)
  else
    let c ← charAt text pos
    if c = '"'.toUInt8 then
      let (out, pos) ← rawString text fuel [] (pos + 1)
      if text.length ≤ pos then return (none, pos) -- unterminated string
      else return (some out, pos + 1)
    else return (none, pos)

def parseString (fuel pos : ℕ) : Except Fault (Option Value × ℕ) := do
  let (s, pos) ← parseRawString text fuel pos
  return (s.map Value.makeString, pos)

/-- `text_.compare(pos, s.size(), s) == 0`. -/
def compare (pos : ℕ) (s : Bytes) : Except Fault Bool :=
  if pos ≤ text.length then return (text.drop pos).take s.length = s else .error .outOfBounds

def parseBool (pos : ℕ) : Except Fault (Option Value × ℕ) := do
  if ← compare text pos (bytes "true") then return (some (.makeBool true), pos + 4)
  else if ← compare text pos (bytes "false") then return (some (.makeBool false), pos + 5)
  else return (none, pos)

def parseNull (pos : ℕ) : Except Fault (Option Value × ℕ) := do
  if ← compare text pos (bytes "null") then return (some .null, pos + 4)
  else return (none, pos)

/-- The cursor after a sign. -/
def skipSign (pos : ℕ) : Except Fault ℕ := do
  if pos < text.length then
    let c ← charAt text pos
    if c = '-'.toUInt8 ∨ c = '+'.toUInt8 then return pos + 1 else return pos
  else return pos

def parseNumber (fuel start : ℕ) : Except Fault (Option Value × ℕ) := do
  let pos ← skipSign text start
  let pos ← scan text isNumberChar fuel pos
  if pos = start then return (none, pos)
  else return ((Numerals.stod ((text.drop start).take (pos - start))).map Value.makeNumber, pos)

mutual

def parseValue : ℕ → ℕ → Except Fault (Option Value × ℕ)
  | 0, _ => .error .outOfFuel
  | fuel + 1, pos => do
    let pos ← skipWhitespace text fuel pos
    if text.length ≤ pos then return (none, pos)
    else
      let c ← charAt text pos
      if c = '{'.toUInt8 then parseObject fuel pos
      else if c = '['.toUInt8 then parseArray fuel pos
      else if c = '"'.toUInt8 then parseString text fuel pos
      else if c = 't'.toUInt8 ∨ c = 'f'.toUInt8 then parseBool text pos
      else if c = 'n'.toUInt8 then parseNull text pos
      else parseNumber text fuel pos

def parseObject : ℕ → ℕ → Except Fault (Option Value × ℕ)
  | 0, _ => .error .outOfFuel
  | fuel + 1, pos => do
    let (opened, pos) ← consume text '{'.toUInt8 fuel pos
    if opened then
      let pos ← skipWhitespace text fuel pos
      let (closed, pos) ← consume text '}'.toUInt8 fuel pos
      if closed then return (some .makeObject, pos) else objectLoop fuel .makeObject pos
    else return (none, pos)

/-- The `while (true)` of `parseObject`, with the object read so far. -/
def objectLoop : ℕ → Value → ℕ → Except Fault (Option Value × ℕ)
  | 0, _, _ => .error .outOfFuel
  | fuel + 1, obj, pos => do
    let pos ← skipWhitespace text fuel pos
    let (key, pos) ← parseRawString text fuel pos
    match key with
    | none => return (none, pos)
    | some key =>
      let (colon, pos) ← consume text ':'.toUInt8 fuel pos
      if colon then
        let (val, pos) ← parseValue fuel pos
        match val with
        | none => return (none, pos)
        | some val =>
          let obj := obj.set key val
          let pos ← skipWhitespace text fuel pos
          let (comma, pos) ← consume text ','.toUInt8 fuel pos
          if comma then objectLoop fuel obj pos
          else
            let (closed, pos) ← consume text '}'.toUInt8 fuel pos
            if closed then return (some obj, pos) else return (none, pos)
      else return (none, pos)

def parseArray : ℕ → ℕ → Except Fault (Option Value × ℕ)
  | 0, _ => .error .outOfFuel
  | fuel + 1, pos => do
    let (opened, pos) ← consume text '['.toUInt8 fuel pos
    if opened then
      let pos ← skipWhitespace text fuel pos
      let (closed, pos) ← consume text ']'.toUInt8 fuel pos
      if closed then return (some .makeArray, pos) else arrayLoop fuel .makeArray pos
    else return (none, pos)

/-- The `while (true)` of `parseArray`, with the array read so far. -/
def arrayLoop : ℕ → Value → ℕ → Except Fault (Option Value × ℕ)
  | 0, _, _ => .error .outOfFuel
  | fuel + 1, arr, pos => do
    let (val, pos) ← parseValue fuel pos
    match val with
    | none => return (none, pos)
    | some val =>
      let arr := arr.push val
      let pos ← skipWhitespace text fuel pos
      let (comma, pos) ← consume text ','.toUInt8 fuel pos
      if comma then arrayLoop fuel arr pos
      else
        let (closed, pos) ← consume text ']'.toUInt8 fuel pos
        if closed then return (some arr, pos) else return (none, pos)

end

end CppMiner.Json.CursorParser
