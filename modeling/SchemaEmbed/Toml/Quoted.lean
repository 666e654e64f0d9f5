import SchemaEmbed.Toml.Char

namespace SchemaEmbed.Toml

/-!
# Reading strings

* `readBasic` / `readLiteral` — strings on one line, in double quotes with escapes and in
  single quotes without;
* `readLongBasic` / `readLongLiteral` — strings in three quotes, which may have several
  lines; a line break right after the opening quotes does not count, and up to two quotes
  may stand before the closing ones;
* `readString?` — whichever begins here.
-/

/-- What an escape stands for: a character, or nothing for a line break between blanks. -/
def escapedLetter? (c : Char) : Option Char :=
  match c with
  | 'b' => some '\x08'
  | 't' => some '\t'
  | 'n' => some '\n'
  | 'f' => some '\x0c'
  | 'r' => some '\r'
  | 'e' => some '\x1b'
  | '"' => some '"'
  | '\\' => some '\\'
  | _ => none

/-- How many hexadecimal digits follow the letter of an escape by code point. -/
def codeWidth? (c : Char) : Option Nat :=
  match c with
  | 'x' => some 2
  | 'u' => some 4
  | 'U' => some 8
  | _ => none

/-- Reads an escape after its backslash. -/
def readEscape : List Char → Except Fault (Char × List Char)
  | [] => .error .unclosedString
  | c :: rest =>
    match escapedLetter? c, codeWidth? c with
    | some x, _ => .ok (x, rest)
    | none, some width =>
      if rest.length < width then .error .invalidEscape
      else
        match (numberInBase 16 (rest.take width)).bind charOfCode? with
        | some x => .ok (x, rest.drop width)
        | none => .error .invalidEscape
    | none, none => .error .invalidEscape

/-- A text after its line break, if it begins with one. -/
def afterBreak? : List Char → Option (List Char)
  | '\n' :: rest => some rest
  | '\r' :: '\n' :: rest => some rest
  | _ => none

/-- Whether a character breaks a line or is a blank. -/
def isBlankOrBreak (c : Char) : Bool := isBlank c || c == '\n' || c == '\r'

/-- A text after blanks and breaks that a backslash joins, if there is a break. -/
def afterJoin? (s : List Char) : Option (List Char) :=
  (afterBreak? (s.dropWhile isBlank)).map fun rest => rest.dropWhile isBlankOrBreak

/-- Reads a basic string up to and with its closing quote; `fuel` is the length of the
    text, `read` the characters so far, last first. -/
def readBasicFrom : (fuel : Nat) → (read : List Char) → List Char →
    Except Fault (String × List Char)
  | 0, _, _ => .error .unclosedString
  | fuel + 1, read, s =>
    match s with
    | [] => .error .unclosedString
    | '"' :: rest => .ok (String.ofList read.reverse, rest)
    | '\\' :: rest => do
      let (c, rest) ← readEscape rest
      readBasicFrom fuel (c :: read) rest
    | c :: rest =>
      if isControl c then .error .invalidCharacter else readBasicFrom fuel (c :: read) rest

/-- Reads a basic string after its opening quote. -/
def readBasic (s : List Char) : Except Fault (String × List Char) :=
  readBasicFrom (s.length + 1) [] s

/-- Reads a literal string after its opening quote. -/
def readLiteral (s : List Char) : Except Fault (String × List Char) :=
  let text := s.takeWhile (· != '\'')
  if text.any isControl then .error .invalidCharacter
  else
    match s.dropWhile (· != '\'') with
    | _ :: rest => .ok (String.ofList text, rest)
    | [] => .error .unclosedString

/-- How many of the quotes at the head of a text belong to a string in three quotes, if
    they close it: all but three, of at most five. -/
def closingQuotes? (q : Char) (s : List Char) : Option Nat :=
  let count := ((s.take 5).takeWhile (· == q)).length
  if count < 3 then none else some (count - 3)

/-- Reads a character of a string with several lines. A carriage return stands only before
    a line feed. -/
def readLineChar : List Char → Except Fault (Char × List Char)
  | [] => .error .unclosedString
  | c :: rest =>
    if isControl c && (afterBreak? (c :: rest)).isNone then .error .invalidCharacter
    else .ok (c, rest)

/-- Reads a long basic string up to and with its closing quotes. -/
def readLongBasicFrom : (fuel : Nat) → (read : List Char) → List Char →
    Except Fault (String × List Char)
  | 0, _, _ => .error .unclosedString
  | fuel + 1, read, s =>
    match closingQuotes? '"' s with
    | some extra =>
      .ok (String.ofList (read.reverse ++ List.replicate extra '"'), s.drop (extra + 3))
    | none =>
      match s with
      | '\\' :: rest =>
        match afterJoin? rest with
        | some after => readLongBasicFrom fuel read after
        | none => do
          let (c, rest) ← readEscape rest
          readLongBasicFrom fuel (c :: read) rest
      | _ => do
        let (c, rest) ← readLineChar s
        readLongBasicFrom fuel (c :: read) rest

/-- Reads a long literal string up to and with its closing quotes. -/
def readLongLiteralFrom : (fuel : Nat) → (read : List Char) → List Char →
    Except Fault (String × List Char)
  | 0, _, _ => .error .unclosedString
  | fuel + 1, read, s =>
    match closingQuotes? '\'' s with
    | some extra =>
      .ok (String.ofList (read.reverse ++ List.replicate extra '\''), s.drop (extra + 3))
    | none => do
      let (c, rest) ← readLineChar s
      readLongLiteralFrom fuel (c :: read) rest

/-- A text without the line break that may follow opening quotes. -/
def dropFirstBreak (s : List Char) : List Char := (afterBreak? s).getD s

/-- Reads a long basic string after its opening quotes. -/
def readLongBasic (s : List Char) : Except Fault (String × List Char) :=
  readLongBasicFrom (s.length + 1) [] (dropFirstBreak s)

/-- Reads a long literal string after its opening quotes. -/
def readLongLiteral (s : List Char) : Except Fault (String × List Char) :=
  readLongLiteralFrom (s.length + 1) [] (dropFirstBreak s)

/-- Reads the string that begins here, if one does; a key must be on one line. -/
def readString? (key : Bool) : List Char → Option (Except Fault (String × List Char))
  | '"' :: '"' :: '"' :: rest =>
    some (if key then .error .unexpected else readLongBasic rest)
  | '\'' :: '\'' :: '\'' :: rest =>
    some (if key then .error .unexpected else readLongLiteral rest)
  | '"' :: rest => some (readBasic rest)
  | '\'' :: rest => some (readLiteral rest)
  | _ => none

end SchemaEmbed.Toml
