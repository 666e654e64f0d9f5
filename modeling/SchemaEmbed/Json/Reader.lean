import SchemaEmbed.Json.Numeral
import SchemaEmbed.Json.Quoted

namespace SchemaEmbed.Json

/-!
# Reading JSON

* `value` / `items` / `members` — the grammar, with a bound on the nesting; every
  function returns what it did not read;
* `parse` — a text that is one value and blanks around it. A key that is repeated in an
  object keeps its first position and takes its last value.

The recursion is bounded by twice the length of the text: of two calls in a row, one
reads a character.
-/

/-- Whether a character may stand between tokens. -/
def isBlank (c : Char) : Bool := c == ' ' || c == '\n' || c == '\t' || c == '\r'

/-- The text without the blanks at its head. -/
def skipBlanks (s : List Char) : List Char := s.dropWhile isBlank

/-- How many containers may be open at once, less one. -/
def maxDepth : Nat := 127

/-- Reads the rest of a word whose first letter has been read. -/
def word (v : Value) : (expected : List Char) → List Char → Except Fault (Value × List Char)
  | [], s => .ok (v, s)
  | _ :: _, [] => .error (.peek .endInValue [])
  | e :: expected, c :: s =>
    if c = e then word v expected s else .error (.peek .expectedIdent (c :: s))

/-- Reads the colon after a key. -/
def colon (s : List Char) : Except Fault (List Char) :=
  match skipBlanks s with
  | ':' :: rest => .ok rest
  | [] => .error (.peek .endInObject [])
  | rest => .error (.peek .expectedColon rest)

/-- What stands next inside a container. -/
inductive Ahead where
  /-- The container ends; the text after it. -/
  | close (rest : List Char)
  /-- One more entry begins; its text. -/
  | entry (text : List Char)

/-- Looks for the next item of a list. -/
def itemAhead (first : Bool) (s : List Char) : Except Fault Ahead :=
  match skipBlanks s with
  | [] => .error (.peek .endInList [])
  | ']' :: rest => .ok (.close rest)
  | c :: rest =>
    if first then .ok (.entry (c :: rest))
    else if c = ',' then
      match skipBlanks rest with
      | ']' :: rest => .error (.peek .trailingComma (']' :: rest))
      | [] => .error (.peek .endInValue [])
      | rest => .ok (.entry rest)
    else .error (.peek .expectedListCommaOrEnd (c :: rest))

/-- Looks for the next member of an object; its text begins within the quotes of the
    key. -/
def memberAhead (first : Bool) (s : List Char) : Except Fault Ahead :=
  match skipBlanks s with
  | [] => .error (.peek .endInObject [])
  | '}' :: rest => .ok (.close rest)
  | c :: rest =>
    if first then
      if c = '"' then .ok (.entry rest) else .error (.peek .keyMustBeString (c :: rest))
    else if c = ',' then
      match skipBlanks rest with
      | '"' :: rest => .ok (.entry rest)
      | '}' :: rest => .error (.peek .trailingComma ('}' :: rest))
      | [] => .error (.peek .endInValue [])
      | rest => .error (.peek .keyMustBeString rest)
    else .error (.peek .expectedObjectCommaOrEnd (c :: rest))

mutual

/-- Reads a value in which `depth` more containers may be opened. -/
def value : (fuel depth : Nat) → List Char → Except Fault (Value × List Char)
  | 0, _, s => .error (.peek .expectedValue s)
  | fuel + 1, depth, s =>
    match skipBlanks s with
    | [] => .error (.peek .endInValue [])
    | 'n' :: rest => word .null ['u', 'l', 'l'] rest
    | 't' :: rest => word (.bool true) ['r', 'u', 'e'] rest
    | 'f' :: rest => word (.bool false) ['a', 'l', 's', 'e'] rest
    | '"' :: rest => (decode rest).map fun (s, rest) => (.string s, rest)
    | '-' :: rest => (numeral true rest).map fun (n, rest) => (.number n, rest)
    | '[' :: rest =>
      match depth with
      | 0 => .error (.peek .recursionLimit ('[' :: rest))
      | depth + 1 => (items fuel depth true rest).map fun (xs, rest) => (.array xs, rest)
    | '{' :: rest =>
      match depth with
      | 0 => .error (.peek .recursionLimit ('{' :: rest))
      | depth + 1 =>
        (members fuel depth true rest).map fun (es, rest) => (.object (Entries.ofList es), rest)
    | c :: rest =>
      if isDigit c then (numeral false (c :: rest)).map fun (n, rest) => (.number n, rest)
      else .error (.peek .expectedValue (c :: rest))

/-- Reads the items of a list and its closing bracket. -/
def items : (fuel depth : Nat) → (first : Bool) → List Char →
    Except Fault (List Value × List Char)
  | 0, _, _, s => .error (.peek .expectedValue s)
  | fuel + 1, depth, first, s => do
    match ← itemAhead first s with
    | .close rest => return ([], rest)
    | .entry text =>
      let (v, rest) ← value fuel depth text
      let (vs, rest) ← items fuel depth false rest
      return (v :: vs, rest)

/-- Reads the members of an object as they are written and its closing brace. -/
def members : (fuel depth : Nat) → (first : Bool) → List Char →
    Except Fault (List (String × Value) × List Char)
  | 0, _, _, s => .error (.peek .expectedValue s)
  | fuel + 1, depth, first, s => do
    match ← memberAhead first s with
    | .close rest => return ([], rest)
    | .entry text =>
      let (key, rest) ← decode text
      let rest ← colon rest
      let (v, rest) ← value fuel depth rest
      let (es, rest) ← members fuel depth false rest
      return ((key, v) :: es, rest)

end

/-- Reads a text that is one value. -/
def parseChars (s : List Char) : Except Fault Value := do
  let (v, rest) ← value (2 * s.length + 2) maxDepth s
  match skipBlanks rest with
  | [] => return v
  | rest => throw (.peek .trailingCharacters rest)

/-- Reads a text that is one value; an error is worded with its place. -/
def parse (text : String) : Except String Value :=
  match parseChars text.toList with
  | .ok v => .ok v
  | .error f => .error (f.message text.toList)

end SchemaEmbed.Json
