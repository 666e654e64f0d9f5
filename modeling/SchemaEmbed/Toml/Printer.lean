import SchemaEmbed.Decimal.Layout
import SchemaEmbed.Location
import SchemaEmbed.Toml.Written
import SchemaEmbed.Value

namespace SchemaEmbed.Toml

/-!
# Writing TOML

A mapping inside a mapping becomes a table with a header, and so do the items of a
sequence of mappings only; all else is written on the line of its key:

* `Value.findNull` — the first null, for which there is no text;
* `inline` — a value on the line of its key;
* `sectionsOf` — the tables with headers that a value becomes; the header of a table is
  left out where nothing but headers is below it;
* `serialize` — the text of a value, which must be a mapping without nulls.
-/

/-! ### Values without a text -/

/-- Why a value has no text. -/
inductive WriteError where
  | notTable
  | nullAt (location : String)
  deriving DecidableEq, Repr

/-- The wording of an error. -/
def WriteError.message : WriteError → String
  | .notTable => "top-level value must be a table"
  | .nullAt location => s!"null value at `{location}` has no TOML representation"

mutual

/-- The location of the first null of a value at a location. -/
def findNull (location : String) : Value → Option String
  | .null => some location
  | .array items => findNullInItems location 0 items
  | .object entries => findNullInEntries location entries
  | _ => none

/-- The first null of the items of a sequence from an index on. -/
def findNullInItems (location : String) (index : Nat) : List Value → Option String
  | [] => none
  | v :: rest =>
    (findNull (Location.item location index) v).or (findNullInItems location (index + 1) rest)

/-- The first null of the entries of a mapping. -/
def findNullInEntries (location : String) : List (String × Value) → Option String
  | [] => none
  | (k, v) :: rest =>
    (findNull (Location.entry location k) v).or (findNullInEntries location rest)

end

/-! ### Values on one line -/

/-- The text of a number. -/
def numberChars : Number → List Char
  | .int i => (toString i).toList
  | .float x => FloatLayout.toml.renderChars x

mutual

/-- A value on the line of its key. Two or more items stand on lines of their own. -/
def inline : Value → List Char
  | .null => []
  | .bool b => (if b then "true" else "false").toList
  | .number n => numberChars n
  | .string s => stringChars s.toList
  | .array [] => ['[', ']']
  | .array [v] => '[' :: inline v ++ [']']
  | .array (v :: w :: rest) => '[' :: '\n' :: inlineItems (v :: w :: rest) ++ [']']
  | .object [] => ['{', '}']
  | .object ((k, v) :: rest) =>
    '{' :: ' ' :: keyChars k.toList ++ ' ' :: '=' :: ' ' :: inline v ++ inlineEntries rest
      ++ [' ', '}']

/-- Items, each on a line of its own. -/
def inlineItems : List Value → List Char
  | [] => []
  | v :: rest => ' ' :: ' ' :: ' ' :: ' ' :: inline v ++ ',' :: '\n' :: inlineItems rest

/-- The entries after the first, each after a comma. -/
def inlineEntries : List (String × Value) → List Char
  | [] => []
  | (k, v) :: rest =>
    ',' :: ' ' :: keyChars k.toList ++ ' ' :: '=' :: ' ' :: inline v ++ inlineEntries rest

end

/-! ### Tables with headers -/

/-- Whether a value is a mapping. -/
def isTable : Value → Bool
  | .object _ => true
  | _ => false

/-- Whether a value is written below headers: a mapping, or a sequence of mappings. -/
def hasHeader : Value → Bool
  | .object _ => true
  | .array items => ! items.isEmpty && items.all isTable
  | _ => false

/-- The lines of the entries that need no header. -/
def lines (entries : List (String × Value)) : List Char :=
  entries.flatMap fun (k, v) =>
    if hasHeader v then [] else keyChars k.toList ++ ' ' :: '=' :: ' ' :: inline v ++ ['\n']

/-- The keys of a header. -/
def pathChars (path : List String) : List Char :=
  (path.map fun k => keyChars k.toList).intersperse ['.'] |>.flatten

/-- The text of a table with its header. -/
def tableSection (path : List String) (entries : List (String × Value)) : List (List Char) :=
  if (lines entries).isEmpty && ! entries.isEmpty then []
  else ['[' :: pathChars path ++ ']' :: '\n' :: lines entries]

/-- The text of a table of an array with its header. -/
def rowSection (path : List String) (entries : List (String × Value)) : List Char :=
  '[' :: '[' :: pathChars path ++ ']' :: ']' :: '\n' :: lines entries

mutual

/-- The texts of the tables that a value under a path brings with it. -/
def sectionsOf (path : List String) : Value → List (List Char)
  | .object entries => tableSection path entries ++ sectionsBelow path entries
  | .array items => if ! items.isEmpty && items.all isTable then sectionsOfRows path items else []
  | _ => []

/-- The texts of the tables below a table, in the order of its entries. -/
def sectionsBelow (path : List String) : List (String × Value) → List (List Char)
  | [] => []
  | (k, v) :: rest => sectionsOf (path ++ [k]) v ++ sectionsBelow path rest

/-- The texts of the tables of an array. -/
def sectionsOfRows (path : List String) : List Value → List (List Char)
  | [] => []
  | .object entries :: rest =>
    (rowSection path entries :: sectionsBelow path entries) ++ sectionsOfRows path rest
  | _ :: rest => sectionsOfRows path rest

end

/-- The text of a table: its lines, then the tables below it, with blank lines between. -/
def tableChars (entries : List (String × Value)) : List Char :=
  let root := lines entries
  let sections := sectionsBelow [] entries
  ((if root.isEmpty then sections else root :: sections).intersperse ['\n']).flatten

/-- The text of a value. -/
def write (v : Value) : Except WriteError String :=
  match v with
  | .object entries =>
    match findNull "" v with
    | some location => .error (.nullAt location)
    | none => .ok (String.ofList (tableChars entries))
  | _ => .error .notTable

/-- The text of a value; an error is worded. -/
def serialize (v : Value) : Except String String := (write v).mapError WriteError.message

end SchemaEmbed.Toml
