import SchemaEmbed.Decimal.Layout
import SchemaEmbed.Json.Quoted
import SchemaEmbed.Value

namespace SchemaEmbed.Json

/-!
# Writing JSON

* `compact` — without blanks;
* `pretty` — one entry a line, two spaces deeper than its container; an empty container
  stays on its line;
* `render` — the pretty form as a text that ends its last line.
-/

/-- The text of a number. -/
def numberChars : Number → List Char
  | .int i => (toString i).toList
  | .float x => FloatLayout.json.renderChars x

/-- A line break and the indentation of a level. -/
def newline (level : Nat) : List Char := '\n' :: List.replicate (2 * level) ' '

mutual

/-- The text of a value without blanks. -/
def compact : Value → List Char
  | .null => ['n', 'u', 'l', 'l']
  | .bool true => ['t', 'r', 'u', 'e']
  | .bool false => ['f', 'a', 'l', 's', 'e']
  | .number n => numberChars n
  | .string s => encode s.toList
  | .array [] => ['[', ']']
  | .array (v :: rest) => '[' :: compact v ++ compactItems rest ++ [']']
  | .object [] => ['{', '}']
  | .object ((k, v) :: rest) =>
    '{' :: encode k.toList ++ ':' :: compact v ++ compactEntries rest ++ ['}']

/-- The items after the first, each after a comma. -/
def compactItems : List Value → List Char
  | [] => []
  | v :: rest => ',' :: compact v ++ compactItems rest

/-- The members after the first, each after a comma. -/
def compactEntries : List (String × Value) → List Char
  | [] => []
  | (k, v) :: rest => ',' :: encode k.toList ++ ':' :: compact v ++ compactEntries rest

end

mutual

/-- The text of a value whose container is indented by `level`. -/
def pretty (level : Nat) : Value → List Char
  | .null => ['n', 'u', 'l', 'l']
  | .bool true => ['t', 'r', 'u', 'e']
  | .bool false => ['f', 'a', 'l', 's', 'e']
  | .number n => numberChars n
  | .string s => encode s.toList
  | .array [] => ['[', ']']
  | .array (v :: rest) =>
    '[' :: newline (level + 1) ++ pretty (level + 1) v ++ prettyItems (level + 1) rest
      ++ newline level ++ [']']
  | .object [] => ['{', '}']
  | .object ((k, v) :: rest) =>
    '{' :: newline (level + 1) ++ encode k.toList ++ ':' :: ' ' :: pretty (level + 1) v
      ++ prettyEntries (level + 1) rest ++ newline level ++ ['}']

/-- The items after the first, each on a line of its own. -/
def prettyItems (level : Nat) : List Value → List Char
  | [] => []
  | v :: rest => ',' :: newline level ++ pretty level v ++ prettyItems level rest

/-- The members after the first, each on a line of its own. -/
def prettyEntries (level : Nat) : List (String × Value) → List Char
  | [] => []
  | (k, v) :: rest =>
    ',' :: newline level ++ encode k.toList ++ ':' :: ' ' :: pretty level v
      ++ prettyEntries level rest

end

/-- The value on one line without blanks. -/
def renderCompact (v : Value) : String := String.ofList (compact v)

/-- The value as the text of a document. -/
def render (v : Value) : String := String.ofList (pretty 0 v ++ ['\n'])

end SchemaEmbed.Json
