-- SUMMARY: The JSON reader and writer of the program: values, `dump`, and the recursive-descent parser.
import CppMiner.Lib.Numerals

/-!
# MiniJson

The values, the serializer and the parser of `utils/MiniJson`. A number is the
rational its `double` stands for. The source keeps the contents of every type in
fields of its own and leaves the fields of the other types at their defaults; here
a value has the contents of its type only, and the accessors give those defaults
for a value of another type.

The parser's cursor, `pos_` into `text_`, is represented by the text not yet read,
`text_.substr(pos_)`. Each function returns what it read, if it succeeds, and the
text it leaves, also when it fails. The recursion between values, objects and
arrays is bounded by fuel.
-/

namespace CppMiner.Json

/-- A single JSON value: null, bool, number, string, array, or object. -/
inductive Value where
  | null
  | bool (b : Bool)
  | number (n : ℚ)
  | string (s : Bytes)
  | array (xs : List Value)
  | object (kvs : List (Bytes × Value))

namespace Value

/-! ## Construction and access -/

def makeString (s : Bytes) : Value := .string s

def makeNumber (n : ℚ) : Value := .number n

def makeBool (b : Bool) : Value := .bool b

def makeArray : Value := .array []

def makeObject : Value := .object []

def asString : Value → Bytes
  | .string s => s
  | _ => []

def asNumber : Value → ℚ
  | .number n => n
  | _ => 0

def asBool : Value → Bool
  | .bool b => b
  | _ => false

/-- Object field access; absent if the value is not an object. -/
def get (v : Value) (key : Bytes) : Option Value :=
  match v with
  | .object kvs => (kvs.find? fun kv => kv.1 = key).map (·.2)
  | _ => none

/-- Overwrite the first member with the key, or append a member. -/
def setMember (key : Bytes) (v : Value) : List (Bytes × Value) → List (Bytes × Value)
  | [] => [(key, v)]
  | (k, existing) :: kvs =>
    if k = key then (k, v) :: kvs else (k, existing) :: setMember key v kvs

/-- Set an object's field. Only objects are given fields. -/
def set (o : Value) (key : Bytes) (v : Value) : Value :=
  match o with
  | .object kvs => .object (setMember key v kvs)
  | o => o

/-- Append an element. Only arrays are given elements. -/
def push (a v : Value) : Value :=
  match a with
  | .array xs => .array (xs ++ [v])
  | a => a

/-! ## Serialization -/

/-- The escape of one character. -/
def escapeChar (c : UInt8) : Bytes :=
  if c = '"'.toUInt8 then bytes "\\\""
  else if c = '\\'.toUInt8 then bytes "\\\\"
  else if c = '\n'.toUInt8 then bytes "\\n"
  else if c = '\r'.toUInt8 then bytes "\\r"
  else if c = '\t'.toUInt8 then bytes "\\t"
  else [c]

/-- Escapes a string for safe inclusion inside a JSON string literal. -/
def escape (s : Bytes) : Bytes := s.flatMap escapeChar

/-- A string between quotes. -/
def quote (s : Bytes) : Bytes := '"'.toUInt8 :: escape s ++ ['"'.toUInt8]

mutual

/-- Serializes a value to a compact JSON string. -/
def dump : Value → Bytes
  | .null => bytes "null"
  | .bool b => if b then bytes "true" else bytes "false"
  | .number n =>
    -- integers without a trailing ".0"
    if n = ⌊n⌋ then Numerals.toString (Double.toInt64 n) else Numerals.streamDouble n
  | .string s => quote s
  | .array xs => '['.toUInt8 :: dumpElems 0 xs ++ [']'.toUInt8]
  | .object kvs => '{'.toUInt8 :: dumpMembers 0 kvs ++ ['}'.toUInt8]

/-- The elements from index `i` on, with a comma before each but the first. -/
def dumpElems (i : ℕ) : List Value → Bytes
  | [] => []
  | v :: vs => (if i = 0 then [] else bytes ",") ++ v.dump ++ dumpElems (i + 1) vs

/-- The members from index `i` on, with a comma before each but the first. -/
def dumpMembers (i : ℕ) : List (Bytes × Value) → Bytes
  | [] => []
  | (k, v) :: kvs =>
    (if i = 0 then [] else bytes ",") ++ quote k ++ ':'.toUInt8 :: v.dump ++
      dumpMembers (i + 1) kvs

end

end Value

/-! ## Parser -/

namespace Parser

def skipWhitespace (text : Bytes) : Bytes := text.dropWhile isspace

/-- Skip blanks, then take the expected character if it comes next. -/
def consume (expected : UInt8) (text : Bytes) : Bool × Bytes :=
  match skipWhitespace text with
  | [] => (false, [])
  | c :: rest => if c = expected then (true, rest) else (false, c :: rest)

/-- What a backslash and the character after it stand for. -/
def unescape (next : UInt8) : UInt8 :=
  if next = 'n'.toUInt8 then '\n'.toUInt8
  else if next = 't'.toUInt8 then '\t'.toUInt8
  else if next = 'r'.toUInt8 then '\r'.toUInt8
  else next

/-- The loop of `parseRawString`: the contents up to the closing quote or the end. -/
def rawString : Bytes → Bytes × Bytes
  | [] => ([], [])
  | [c] => if c = '"'.toUInt8 then ([], [c]) else ([c], [])
  | c :: next :: rest =>
    if c = '"'.toUInt8 then ([], c :: next :: rest)
    else if c = '\\'.toUInt8 then
      (unescape next :: (rawString rest).1, (rawString rest).2)
    else
      (c :: (rawString (next :: rest)).1, (rawString (next :: rest)).2)

def parseRawString (text : Bytes) : Option Bytes × Bytes :=
  match skipWhitespace text with
  | [] => (none, [])
  | c :: rest =>
    if c = '"'.toUInt8 then
      match rawString rest with
      | (_, []) => (none, []) -- unterminated string
      | (out, _ :: rest) => (some out, rest)
    else (none, c :: rest)

def parseString (text : Bytes) : Option Value × Bytes :=
  match parseRawString text with
  | (none, rest) => (none, rest)
  | (some s, rest) => (some (.makeString s), rest)

def parseBool (text : Bytes) : Option Value × Bytes :=
  if text.take 4 = bytes "true" then (some (.makeBool true), text.drop 4)
  else if text.take 5 = bytes "false" then (some (.makeBool false), text.drop 5)
  else (none, text)

def parseNull (text : Bytes) : Option Value × Bytes :=
  if text.take 4 = bytes "null" then (some .null, text.drop 4) else (none, text)

/-- The characters the scan of a number runs over. -/
def isNumberChar (c : UInt8) : Bool :=
  isdigit c || c = '.'.toUInt8 || c = 'e'.toUInt8 || c = 'E'.toUInt8 ||
    c = '-'.toUInt8 || c = '+'.toUInt8

/-- A leading sign is one of the characters scanned over, so one scan does for both. -/
def parseNumber (text : Bytes) : Option Value × Bytes :=
  let token := text.takeWhile isNumberChar
  let rest := text.dropWhile isNumberChar
  if token = [] then (none, rest)
  else
    match Numerals.stod token with
    | some n => (some (.makeNumber n), rest)
    | none => (none, rest)

mutual

def parseValue : ℕ → Bytes → Option Value × Bytes
  | 0, text => (none, text)
  | fuel + 1, text =>
    match skipWhitespace text with
    | [] => (none, [])
    | c :: rest =>
      if c = '{'.toUInt8 then parseObject fuel (c :: rest)
      else if c = '['.toUInt8 then parseArray fuel (c :: rest)
      else if c = '"'.toUInt8 then parseString (c :: rest)
      else if c = 't'.toUInt8 ∨ c = 'f'.toUInt8 then parseBool (c :: rest)
      else if c = 'n'.toUInt8 then parseNull (c :: rest)
      else parseNumber (c :: rest)

def parseObject : ℕ → Bytes → Option Value × Bytes
  | 0, text => (none, text)
  | fuel + 1, text =>
    match consume '{'.toUInt8 text with
    | (false, rest) => (none, rest)
    | (true, rest) =>
      match consume '}'.toUInt8 (skipWhitespace rest) with
      | (true, rest) => (some .makeObject, rest)
      | (false, rest) => objectLoop fuel .makeObject rest

/-- The `while (true)` of `parseObject`, with the object read so far. -/
def objectLoop : ℕ → Value → Bytes → Option Value × Bytes
  | 0, _, text => (none, text)
  | fuel + 1, obj, text =>
    match parseRawString (skipWhitespace text) with
    | (none, rest) => (none, rest)
    | (some key, rest) =>
      match consume ':'.toUInt8 rest with
      | (false, rest) => (none, rest)
      | (true, rest) =>
        match parseValue fuel rest with
        | (none, rest) => (none, rest)
        | (some val, rest) =>
          match consume ','.toUInt8 (skipWhitespace rest) with
          | (true, rest) => objectLoop fuel (obj.set key val) rest
          | (false, rest) =>
            match consume '}'.toUInt8 rest with
            | (true, rest) => (some (obj.set key val), rest)
            | (false, rest) => (none, rest)

def parseArray : ℕ → Bytes → Option Value × Bytes
  | 0, text => (none, text)
  | fuel + 1, text =>
    match consume '['.toUInt8 text with
    | (false, rest) => (none, rest)
    | (true, rest) =>
      match consume ']'.toUInt8 (skipWhitespace rest) with
      | (true, rest) => (some .makeArray, rest)
      | (false, rest) => arrayLoop fuel .makeArray rest

/-- The `while (true)` of `parseArray`, with the array read so far. -/
def arrayLoop : ℕ → Value → Bytes → Option Value × Bytes
  | 0, _, text => (none, text)
  | fuel + 1, arr, text =>
    match parseValue fuel text with
    | (none, rest) => (none, rest)
    | (some val, rest) =>
      match consume ','.toUInt8 (skipWhitespace rest) with
      | (true, rest) => arrayLoop fuel (arr.push val) rest
      | (false, rest) =>
        match consume ']'.toUInt8 rest with
        | (true, rest) => (some (arr.push val), rest)
        | (false, rest) => (none, rest)

end

end Parser

/-- Parses a single JSON value from `text`. A call takes at most three levels of
recursion for each character it reads. -/
def parse (text : Bytes) : Option Value :=
  (Parser.parseValue (3 * text.length + 3) text).1

end CppMiner.Json
