import SchemaEmbed.Decimal.Layout
import SchemaEmbed.Yaml.Written

namespace SchemaEmbed.Yaml

/-!
# Writing YAML

Collections are written in block style, two spaces deeper than what they are in, except
that a sequence directly under a key of one line is not indented:

* `Place` — where a node is written;
* `Tree.chars` — a node with the end of its last line;
* `Tree.isWritable` — whether a tree has a text at all: a mapping of one entry cannot
  have a key with a tag, nor a key that is such a mapping, unless it has a tag itself;
* `render` — the text of a structured value.
-/

/-- Where a node is written. -/
structure Place where
  /-- The column of the collection around it; absent for the root. -/
  indent : Option Nat
  /-- Whether it is a key or a value. -/
  inMapping : Bool
  /-- Whether a collection can begin on the same line, as after a dash. -/
  inline : Bool
  /-- Whether it is a key on one line with its value. -/
  key : Bool
  /-- Whether a space separates it from what is before it. -/
  spaced : Bool

namespace Place

/-- The place of a whole document. -/
def root : Place := ⟨none, false, true, false, false⟩

/-- The place of an item of a sequence at a column. -/
def item (column : Nat) : Place := ⟨some column, false, true, false, true⟩

/-- The place of a key, or of a value whose key has more lines, in a mapping at a
    column. -/
def part (column : Nat) : Place := ⟨some column, true, true, false, true⟩

/-- The place of a key on one line. -/
def simpleKey (column : Nat) : Place := ⟨some column, true, true, true, false⟩

/-- The place of a value on the line of its key. -/
def value (column : Nat) : Place := ⟨some column, true, false, false, true⟩

/-- The place behind a tag, where no collection begins on the same line. -/
def tagged (p : Place) : Place := { p with inline := false, spaced := true }

/-- What separates a node from what is before it. -/
def lead (p : Place) : List Char := if p.spaced then [' '] else []

/-- The column of the lines of a scalar. -/
def scalarColumn (p : Place) : Nat :=
  match p.indent with
  | some n => n + 2
  | none => 2

/-- The column of a mapping here. -/
def mappingColumn (p : Place) : Nat :=
  match p.indent with
  | some n => n + 2
  | none => 0

/-- The column of a sequence here. -/
def sequenceColumn (p : Place) : Nat :=
  match p.indent with
  | some n => if p.inMapping && ! p.inline then n else n + 2
  | none => 0

/-- What comes before the first entry of a collection at `column`. -/
def opening (p : Place) (column : Nat) : List Char :=
  if p.inline then p.lead else '\n' :: spaces column

end Place

/-! ### Scalars and tags -/

/-- Whether a character of a tag is written as it is. -/
def isTagChar (c : Char) : Bool :=
  isWord c || ";/?:@&=+$,_.~*'()[]".toList.contains c

/-- The octets of a text, those of other characters than the ones of tags escaped. -/
def tagText (s : List Char) : List Char :=
  s.flatMap fun c =>
    if isTagChar c then [c]
    else (String.ofList [c]).toUTF8.toList.flatMap fun b => '%' :: hexDigits 2 b.toNat

/-- A name of a tag with an exclamation mark before it. -/
def markedTag (tag : String) : List Char :=
  match (tagName tag).toList with
  | '!' :: rest => '!' :: rest
  | name => '!' :: name

/-- A tag as it is written; the exclamation mark alone is no short form. -/
def tagChars (tag : String) : List Char :=
  match (markedTag tag).drop 1 with
  | [] => '!' :: '<' :: tagText ['!'] ++ ['>']
  | name => '!' :: tagText name

/-- The text of a number. -/
def numberChars : Number → List Char
  | .int i => (toString i).toList
  | .float x =>
    if x.isFinite then FloatLayout.yaml.renderChars x
    else if x.isNaN then ".nan".toList
    else if x.negative then "-.inf".toList
    else ".inf".toList

/-- The text of a scalar at a place; collections and tags have none. -/
def Tree.scalarChars (p : Place) : Tree → List Char
  | .null => "null".toList
  | .bool b => (if b then "true" else "false").toList
  | .number n => numberChars n
  | .string s => stringChars p.key p.scalarColumn s.toList
  | _ => []

/-- The length in octets of a key with its tags, if it fits on one line. -/
def Tree.lineLength? : Tree → Option Nat
  | .string s => if s.toList.any isBreak then none else some s.utf8ByteSize
  | .sequence [] | .mapping [] => some 0
  | .sequence _ | .mapping _ => none
  | .tagged tag content => 
    content.lineLength?.map (· + (String.ofList (markedTag tag)).utf8ByteSize)
  | leaf => some (leaf.scalarChars .root).length

/-- Whether a key is written on one line with its value. -/
def Tree.isSimpleKey (t : Tree) : Bool := t.lineLength?.any (· ≤ 128)

/-! ### Trees -/

/-- Ends a line, unless it has just been ended by a break that belongs to a literal
    scalar. -/
def endLine (s : List Char) : List Char :=
  if s.getLast?.any isBreak then s else s ++ ['\n']

mutual

/-- A node at a place, without the end of its last line if it is a scalar. -/
def Tree.bodyAt (p : Place) : Tree → List Char
  | .sequence items =>
    if items.isEmpty then p.lead ++ ['[', ']']
    else Tree.itemsAt p.sequenceColumn (p.opening p.sequenceColumn) items
  | .mapping entries =>
    if entries.isEmpty then p.lead ++ ['{', '}']
    else Tree.entriesAt p.mappingColumn (p.opening p.mappingColumn) entries
  | .tagged tag content => p.lead ++ tagChars tag ++ content.bodyAt p.tagged
  | leaf => p.lead ++ leaf.scalarChars p

/-- The items of a sequence at a column, the first one after `opening`. -/
def Tree.itemsAt (column : Nat) (opening : List Char) : List Tree → List Char
  | [] => []
  | item :: items =>
    opening ++ '-' :: endLine (item.bodyAt (.item column))
      ++ Tree.itemsAt column (spaces column) items

/-- The entries of a mapping at a column, the first one after `opening`. -/
def Tree.entriesAt (column : Nat) (opening : List Char) : List (Tree × Tree) → List Char
  | [] => []
  | (key, value) :: entries =>
    opening
      ++ (if key.isSimpleKey then
          key.bodyAt (.simpleKey column) ++ ':' :: endLine (value.bodyAt (.value column))
        else
          '?' :: endLine (key.bodyAt (.part column)) ++ spaces column
            ++ ':' :: endLine (value.bodyAt (.part column)))
      ++ Tree.entriesAt column (spaces column) entries

end

/-- The text of a tree. -/
def Tree.chars (t : Tree) : List Char := endLine (t.bodyAt .root)

/-! ### Trees without a text -/

/-- Whether a mapping has one entry. -/
def Tree.isSingle : Tree → Bool
  | .mapping [_] => true
  | _ => false

/-- Whether a tree has a tag. -/
def Tree.isTagged : Tree → Bool
  | .tagged .. => true
  | _ => false

mutual

/-- Whether a tree has a text; `isTagged` is set right inside a tag. -/
def Tree.isWritableIn (isTagged : Bool) : Tree → Bool
  | .tagged _ content => ! isTagged && content.isWritableIn true
  | .sequence items => Tree.areItemsWritable items
  | .mapping entries =>
    Tree.areEntriesWritable (entries.length == 1 && ! isTagged) entries
  | _ => true

/-- Whether all items have a text. -/
def Tree.areItemsWritable : List Tree → Bool
  | [] => true
  | item :: items => item.isWritableIn false && Tree.areItemsWritable items

/-- Whether all keys and values have a text; `alone` is set for the only entry of a
    mapping without a tag. -/
def Tree.areEntriesWritable (alone : Bool) : List (Tree × Tree) → Bool
  | [] => true
  | (key, value) :: entries =>
    ! (alone && (key.isTagged || key.isSingle)) && key.isWritableIn false
      && value.isWritableIn false && Tree.areEntriesWritable alone entries

end

/-- Whether a tree has a text. -/
def Tree.isWritable (t : Tree) : Bool := t.isWritableIn false

/-! ### Structured values -/

mutual

/-- A structured value as a tree. -/
def Tree.ofValue : Value → Tree
  | .null => .null
  | .bool b => .bool b
  | .number n => .number n
  | .string s => .string s
  | .array items => .sequence (Tree.ofItems items)
  | .object entries => .mapping (Tree.ofEntries entries)

/-- The items of a sequence as trees. -/
def Tree.ofItems : List Value → List Tree
  | [] => []
  | v :: rest => Tree.ofValue v :: Tree.ofItems rest

/-- The entries of a mapping as trees. -/
def Tree.ofEntries : List (String × Value) → List (Tree × Tree)
  | [] => []
  | (k, v) :: rest => (.string k, Tree.ofValue v) :: Tree.ofEntries rest

end

/-- The text of a structured value. -/
def render (v : Value) : String := String.ofList (Tree.ofValue v).chars

end SchemaEmbed.Yaml
