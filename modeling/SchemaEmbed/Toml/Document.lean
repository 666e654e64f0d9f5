import SchemaEmbed.Toml.Bare
import SchemaEmbed.Toml.Draft
import SchemaEmbed.Toml.Quoted

namespace SchemaEmbed.Toml

/-!
# Documents

* `readKey` — a key of one or more parts with dots between them;
* `readValue` — a value, with arrays and inline tables of at most eighty levels;
* `Line` — a header, or an entry with its key; `readLines` reads a whole text;
* `assemble` — the table that lines define, section by section;
* `readTable` — the table of a text.

The recursion on values is bounded by twice the length of the text: of two calls in a
row, one reads a character.
-/

/-- How many levels of arrays and inline tables, or parts of a key, are read. -/
def maxLevels : Nat := 80

/-! ### Blanks, comments and lines -/

/-- A text without the blanks at its head. -/
def skipBlanks (s : List Char) : List Char := s.dropWhile isBlank

/-- A text without the comment at its head; it reaches to the end of the line. -/
def skipComment : List Char → Except Fault (List Char)
  | '#' :: rest =>
    let stop (c : Char) := c == '\n' || c == '\r'
    if (rest.takeWhile (! stop ·)).any isControl then .error .invalidCharacter
    else .ok (rest.dropWhile (! stop ·))
  | s => .ok s

/-- A text without the end of a line: blanks, a comment and a break or the end. -/
def endOfLine (s : List Char) : Except Fault (List Char) := do
  match ← skipComment (skipBlanks s) with
  | [] => return []
  | s =>
    match afterBreak? s with
    | some rest => return rest
    | none => throw .unexpected

/-- A text without blanks, comments and breaks at its head; `fuel` is its length. -/
def skipLines : (fuel : Nat) → List Char → Except Fault (List Char)
  | 0, s => .ok s
  | fuel + 1, s => do
    let s ← skipComment (skipBlanks s)
    match afterBreak? s with
    | some rest => skipLines fuel rest
    | none => return s

/-- A text without blanks, comments and breaks at its head. -/
def skipSpace (s : List Char) : Except Fault (List Char) := skipLines (s.length + 1) s

/-! ### Keys -/

/-- Reads one part of a key. -/
def readKeyPart (s : List Char) : Except Fault (String × List Char) :=
  match readString? true s with
  | some result => result
  | none =>
    let word := s.takeWhile isBare
    if word.isEmpty then .error .unexpected
    else .ok (String.ofList word, s.drop word.length)

/-- Reads the parts of a key, at most `count` of them, and the blanks after it. -/
def readKeyParts : (count : Nat) → List Char → Except Fault (List String × List Char)
  | 0, _ => .error .tooDeep
  | count + 1, s => do
    let (part, s) ← readKeyPart (skipBlanks s)
    match skipBlanks s with
    | '.' :: rest =>
      let (parts, s) ← readKeyParts count rest
      return (part :: parts, s)
    | s => return ([part], s)

/-- A key: the parts before the last one, and the last one. -/
structure Key where
  path : List String
  name : String
  deriving DecidableEq, Repr

/-- Reads a key and the blanks around it. -/
def readKey (s : List Char) : Except Fault (Key × List Char) := do
  let (parts, s) ← readKeyParts maxLevels s
  return (⟨parts.dropLast, parts.getLastD ""⟩, s)

/-- Reads a key, the equals sign and the blanks after it. -/
def readKeyAndSign (s : List Char) : Except Fault (Key × List Char) := do
  let (key, s) ← readKey s
  match s with
  | '=' :: rest => return (key, skipBlanks rest)
  | _ => throw .unexpected

/-! ### Values -/

mutual

/-- Reads a value in which `depth` more levels may be opened. -/
def readValue : (fuel depth : Nat) → List Char → Except Fault (Item × List Char)
  | 0, _, _ => .error .unexpected
  | fuel + 1, depth, s =>
    match s with
    | '[' :: rest =>
      match depth with
      | 0 => .error .tooDeep
      | depth + 1 => do
        let (items, rest) ← readItems fuel depth rest
        return (.array items, rest)
    | '{' :: rest =>
      match depth with
      | 0 => .error .tooDeep
      | depth + 1 => do
        let (entries, rest) ← readEntries fuel depth [] rest
        return (.table (Draft.toEntries entries), rest)
    | _ =>
      match readString? false s with
      | some result => result.map fun (text, rest) => (.string text, rest)
      | none =>
        let word := bareWord s
        (readBare word).map fun item => (item, s.drop word.length)

/-- Reads the items of an array and its closing bracket. -/
def readItems : (fuel depth : Nat) → List Char → Except Fault (List Item × List Char)
  | 0, _, _ => .error .unexpected
  | fuel + 1, depth, s => do
    match ← skipSpace s with
    | ']' :: rest => return ([], rest)
    | s =>
      let (item, s) ← readValue fuel depth s
      match ← skipSpace s with
      | ']' :: rest => return ([item], rest)
      | ',' :: rest =>
        let (items, rest) ← readItems fuel depth rest
        return (item :: items, rest)
      | _ => throw .unexpected

/-- Reads the entries of an inline table after those it has, and its closing brace. -/
def readEntries : (fuel depth : Nat) → Entries Draft → List Char →
    Except Fault (Entries Draft × List Char)
  | 0, _, _, _ => .error .unexpected
  | fuel + 1, depth, entries, s => do
    match ← skipSpace s with
    | '}' :: rest => return (entries, rest)
    | s =>
      let (key, s) ← readKeyAndSign s
      let (item, s) ← readValue fuel depth s
      let entries ← Draft.define key.path key.name item entries
      match ← skipSpace s with
      | '}' :: rest => return (entries, rest)
      | ',' :: rest => readEntries fuel depth entries rest
      | _ => throw .unexpected

end

/-! ### Sections -/

/-- A header. -/
inductive Header where
  | table (key : Key)
  | tables (key : Key)
  deriving DecidableEq, Repr

/-- A line of a document. -/
inductive Line where
  | header (h : Header)
  | entry (key : Key) (item : Item)

/-- Reads the next line, if there is one. -/
def readLine (s : List Char) : Except Fault (Option (Line × List Char)) := do
  match ← skipSpace s with
  | [] => return none
  | '[' :: '[' :: rest =>
    let (key, s) ← readKey rest
    match s with
    | ']' :: ']' :: rest => return some (.header (.tables key), ← endOfLine rest)
    | _ => throw .unexpected
  | '[' :: rest =>
    let (key, s) ← readKey rest
    match s with
    | ']' :: rest => return some (.header (.table key), ← endOfLine rest)
    | _ => throw .unexpected
  | s =>
    let (key, s) ← readKeyAndSign s
    let (item, s) ← readValue (2 * s.length + 2) maxLevels s
    return some (.entry key item, ← endOfLine s)

/-- Reads lines to the end of the text; `fuel` bounds their number. -/
def readLines : (fuel : Nat) → List Char → Except Fault (List Line)
  | 0, _ => .error .unexpected
  | fuel + 1, s => do
    match ← readLine s with
    | none => return []
    | some (line, rest) =>
      let lines ← readLines fuel rest
      return line :: lines

/-- The entries of lines up to the next header, and the lines from there on. -/
def leadingEntries : List Line → List (Key × Item) × List Line
  | .entry key item :: rest =>
    let (entries, rest) := leadingEntries rest
    ((key, item) :: entries, rest)
  | rest => ([], rest)

/-- Adds the entries of a section to a table. -/
def fill (lines : List (Key × Item)) (entries : Entries Draft) :
    Except Fault (Entries Draft) :=
  lines.foldlM (fun entries (key, item) => Draft.define key.path key.name item entries) entries

/-- Adds a section to a document. -/
def addSection (root : Entries Draft) (header : Header) (lines : List (Key × Item)) :
    Except Fault (Entries Draft) :=
  match header with
  | .table key => Draft.closeTable key.path key.name (fill lines) root
  | .tables key => Draft.appendTable key.path key.name (fill lines) root

/-- Adds sections to a document; `fuel` bounds their number. -/
def addSections : (fuel : Nat) → Entries Draft → List Line → Except Fault (Entries Draft)
  | 0, _, _ => .error .unexpected
  | fuel + 1, root, lines =>
    match lines with
    | [] => .ok root
    | .entry .. :: _ => .error .unexpected
    | .header h :: rest => do
      let (entries, rest) := leadingEntries rest
      let root ← addSection root h entries
      addSections fuel root rest

/-- The entries of the root table that lines define. -/
def assemble (lines : List Line) : Except Fault (Entries Draft) := do
  let (entries, rest) := leadingEntries lines
  let root ← fill entries []
  addSections (rest.length + 1) root rest

/-- A text without a byte order mark before it. -/
def dropByteOrderMark : List Char → List Char
  | '\ufeff' :: rest => rest
  | s => s

/-- The entries of the root table of a text. -/
def readTable (text : String) : Except Fault (Entries Item) := do
  let s := dropByteOrderMark text.toList
  let lines ← readLines (s.length + 1) s
  let root ← assemble lines
  Item.reviveEntries (Draft.toEntries root)

end SchemaEmbed.Toml
