namespace SchemaEmbed.Json

/-!
# Why a text is not JSON, and where

* `Cause` — what was wrong, with its wording;
* `Fault` — a cause together with what was still unread, from which the place follows;
* `Position.advance` — lines are counted from one, columns in bytes from the start of
  the line;
* `Fault.message` — the wording with line and column.
-/

/-- What can be wrong with a JSON text. -/
inductive Cause where
  | endInList
  | endInObject
  | endInString
  | endInValue
  | expectedColon
  | expectedListCommaOrEnd
  | expectedObjectCommaOrEnd
  | expectedIdent
  | expectedValue
  | invalidEscape
  | invalidNumber
  | numberOutOfRange
  | controlCharacter
  | keyMustBeString
  | loneSurrogate
  | trailingComma
  | trailingCharacters
  | unexpectedEndOfHexEscape
  | recursionLimit
  deriving DecidableEq, Repr

/-- The wording of a cause. -/
def Cause.message : Cause → String
  | .endInList => "EOF while parsing a list"
  | .endInObject => "EOF while parsing an object"
  | .endInString => "EOF while parsing a string"
  | .endInValue => "EOF while parsing a value"
  | .expectedColon => "expected `:`"
  | .expectedListCommaOrEnd => "expected `,` or `]`"
  | .expectedObjectCommaOrEnd => "expected `,` or `\x7d`"
  | .expectedIdent => "expected ident"
  | .expectedValue => "expected value"
  | .invalidEscape => "invalid escape"
  | .invalidNumber => "invalid number"
  | .numberOutOfRange => "number out of range"
  | .controlCharacter => "control character (\\u0000-\\u001F) found while parsing a string"
  | .keyMustBeString => "key must be a string"
  | .loneSurrogate => "lone leading surrogate in hex escape"
  | .trailingComma => "trailing comma"
  | .trailingCharacters => "trailing characters"
  | .unexpectedEndOfHexEscape => "unexpected end of hex escape"
  | .recursionLimit => "recursion limit exceeded"

/-- A place in a text. -/
structure Position where
  line : Nat
  column : Nat
  deriving DecidableEq, Repr

/-- The place where a text begins. -/
def Position.start : Position := ⟨1, 0⟩

/-- The place after one more character. -/
def Position.advance (p : Position) (c : Char) : Position :=
  if c = '\n' then ⟨p.line + 1, 0⟩ else ⟨p.line, p.column + c.utf8Size⟩

/-- The place `bytes` bytes further into `text`, but not past its end; a place within a
    character is in the column of its byte. -/
def Position.advanceBytes (p : Position) : (bytes : Nat) → (text : List Char) → Position
  | 0, _ => p
  | _, [] => p
  | bytes + 1, c :: rest =>
    if c.utf8Size ≤ bytes + 1 then
      (p.advance c).advanceBytes (bytes + 1 - c.utf8Size) rest
    else ⟨p.line, p.column + bytes + 1⟩

/-- A cause, what was unread when it was found, and how many bytes of that had been
    looked at. -/
structure Fault where
  cause : Cause
  rest : List Char
  ahead : Nat
  deriving DecidableEq, Repr

/-- A fault at the next character. -/
def Fault.peek (cause : Cause) (rest : List Char) : Fault := ⟨cause, rest, 1⟩

/-- A fault in what has been read. -/
def Fault.here (cause : Cause) (rest : List Char) : Fault := ⟨cause, rest, 0⟩

/-- The place of a fault in the text it was found in. -/
def Fault.position (text : List Char) (f : Fault) : Position :=
  ((text.take (text.length - f.rest.length)).foldl Position.advance .start).advanceBytes
    f.ahead f.rest

/-- The wording of a fault with its place. -/
def Fault.message (text : List Char) (f : Fault) : String :=
  let p := f.position text
  s!"{f.cause.message} at line {p.line} column {p.column}"

end SchemaEmbed.Json
