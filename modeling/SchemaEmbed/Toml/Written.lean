import SchemaEmbed.Toml.Char

namespace SchemaEmbed.Toml

/-!
# How strings and keys are written

* `TextTraits` — what a text has that keeps it from being written in some style;
* `valueStyle` — the style of a value: without escapes as long as one admits it, on one
  line if the text has no break;
* `keyChars` — a key, bare if it can be.
-/

/-- How a string is written. -/
inductive TextStyle where
  | basic
  | literal
  | longBasic
  | longLiteral
  deriving DecidableEq, Repr

/-- The longest run of a character in a text; `run` is the length of the run before it. -/
def longestRun (q : Char) (run : Nat) : List Char → Nat
  | [] => run
  | c :: rest => if c = q then longestRun q (run + 1) rest else max run (longestRun q 0 rest)

/-- What keeps a text from being written in some style. -/
structure TextTraits where
  /-- It has a character that only an escape can write. -/
  hasControl : Bool
  hasBreak : Bool
  hasBackslash : Bool
  /-- The longest run of double quotes. -/
  doubleQuotes : Nat
  /-- The longest run of single quotes. -/
  singleQuotes : Nat

/-- The traits of a text. -/
def TextTraits.of (s : List Char) : TextTraits :=
  { hasControl := s.any fun c => isControl c && c != '\n'
    hasBreak := s.contains '\n'
    hasBackslash := s.contains '\\'
    doubleQuotes := longestRun '"' 0 s
    singleQuotes := longestRun '\'' 0 s }

/-- The style of a value. -/
def valueStyle (s : List Char) : TextStyle :=
  let t := TextTraits.of s
  let plain := ! t.hasControl && ! t.hasBackslash
  if plain && ! t.hasBreak && t.doubleQuotes == 0 then .basic
  else if ! t.hasControl && ! t.hasBreak && t.singleQuotes == 0 then .literal
  else if plain && t.doubleQuotes ≤ 2 then .longBasic
  else if ! t.hasControl && t.singleQuotes ≤ 2 then .longLiteral
  else if t.hasBreak then .longBasic
  else .basic

/-! ### Written forms -/

/-- The hexadecimal digit of a value below sixteen, in upper case. -/
def hexDigit (n : Nat) : Char := "0123456789ABCDEF".toList.getD n '0'

/-- The form of a character other than a quote and a break in a basic string. -/
def escape (c : Char) : List Char :=
  if c = '\x08' then ['\\', 'b']
  else if c = '\t' then ['\\', 't']
  else if c = '\n' then ['\\', 'n']
  else if c = '\x0c' then ['\\', 'f']
  else if c = '\r' then ['\\', 'r']
  else if c = '"' then ['\\', '"']
  else if c = '\\' then ['\\', '\\']
  else if isControl c then
    ['\\', 'u', '0', '0', hexDigit (c.toNat / 16), hexDigit (c.toNat % 16)]
  else [c]

/-- The body of a long basic string: breaks stand for themselves, and so do quotes, but
    every third one in a row; `run` counts those before. -/
def longBasicBody (run : Nat) : List Char → List Char
  | [] => []
  | c :: rest =>
    if c = '"' then
      if run = 2 then '\\' :: '"' :: longBasicBody 0 rest else '"' :: longBasicBody (run + 1) rest
    else if c = '\n' then '\n' :: longBasicBody 0 rest
    else escape c ++ longBasicBody 0 rest

/-- A text in a style. A long form of several lines begins on a line of its own. -/
def writtenIn (style : TextStyle) (s : List Char) : List Char :=
  let opening := if s.contains '\n' then ['\n'] else []
  match style with
  | .basic => '"' :: s.flatMap escape ++ ['"']
  | .literal => '\'' :: s ++ ['\'']
  | .longBasic => '"' :: '"' :: '"' :: opening ++ longBasicBody 0 s ++ ['"', '"', '"']
  | .longLiteral => '\'' :: '\'' :: '\'' :: opening ++ s ++ ['\'', '\'', '\'']

/-- A string as a value. -/
def stringChars (s : List Char) : List Char := writtenIn (valueStyle s) s

/-- A key: bare if it can be, else in the first style for one line that needs no escape,
    else with escapes. -/
def keyChars (s : List Char) : List Char :=
  let t := TextTraits.of s
  if ! s.isEmpty && s.all isBare then s
  else if ! t.hasControl && ! t.hasBreak && t.singleQuotes == 0
      && (t.hasBackslash || t.doubleQuotes != 0) then
    writtenIn .literal s
  else writtenIn .basic s

end SchemaEmbed.Toml
