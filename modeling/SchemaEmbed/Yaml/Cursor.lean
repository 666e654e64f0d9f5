import SchemaEmbed.Yaml.Char

namespace SchemaEmbed.Yaml

/-!
# A place in a YAML text

* `Cursor` — what is still to be read, with the place that has been reached: the column
  decides on indentation, line and index on whether a key is short enough;
* `advance` / `readBreak` — passing characters of a line, and passing a line break;
* `SyntaxError` — a reason and, where one is known, its place.
-/

/-- What is still to be read and the place that has been reached. -/
structure Cursor where
  rest : List Char
  /-- Characters passed. -/
  index : Nat
  /-- Lines passed. -/
  line : Nat
  /-- Characters passed in the line. -/
  column : Nat
  deriving Repr

/-- Why a text is not YAML, and the line and column where that showed, if it showed at a
    single place. -/
structure SyntaxError where
  reason : String
  place : Option (Nat × Nat)
  deriving Repr

namespace Cursor

/-- The beginning of a text. -/
def start (text : List Char) : Cursor := ⟨text, 0, 0, 0⟩

/-- The place after `n` more characters of the line. -/
def advance (c : Cursor) (n : Nat) : Cursor :=
  ⟨c.rest.drop n, c.index + n, c.line, c.column + n⟩

/-- The place after the characters at the head that satisfy `p`, none of them a break. -/
def skipWhile (c : Cursor) (p : Char → Bool) : Cursor := c.advance (c.rest.takeWhile p).length

/-- The place in the next line after passing `n` characters of a line break. -/
def nextLine (c : Cursor) (n : Nat) : Cursor :=
  ⟨c.rest.drop n, c.index + n, c.line + 1, 0⟩

/-- Passes a line break, if one stands here, and gives what it contributes to a scalar:
    a line feed, but a line or paragraph separator stands for itself. -/
def readBreak (c : Cursor) : List Char × Cursor :=
  match c.rest with
  | '\r' :: '\n' :: _ => (['\n'], c.nextLine 2)
  | b :: _ =>
    if isBreak b then
      (if b = '\u2028' || b = '\u2029' then [b] else ['\n'], c.nextLine 1)
    else ([], c)
  | [] => ([], c)

/-- Whether the next character is `x`. -/
def sees (c : Cursor) (x : Char) : Bool := c.rest.head? == some x

/-- Whether a document indicator stands here. -/
def atDocumentIndicator (c : Cursor) : Bool := c.column == 0 && isDocumentIndicator c.rest

/-- An error found here. -/
def fail {α : Type} (c : Cursor) (reason : String) : Except SyntaxError α :=
  .error ⟨reason, some (c.line + 1, c.column + 1)⟩

/-- Passes blanks and a comment to the end of the line. -/
def skipComment (c : Cursor) : Cursor :=
  let c := c.skipWhile isBlank
  if c.sees '#' then c.skipWhile (! isBreak ·) else c

end Cursor

end SchemaEmbed.Yaml
