import SchemaEmbed.Location
import SchemaEmbed.Text.Blank
import SchemaEmbed.Yaml.Printer

namespace SchemaEmbed.Yaml

/-!
# Tags of the document's own

A tag that is not of the core schema cannot be kept, so a document with one is refused:

* `Finding` — a tag and where it is;
* `keyText` — how a location shows a key;
* `Tree.findTag` — the first tag in document order: a key comes before its value, and a
  node before what is inside it.
-/

/-- A tag of the document's own and where it is. -/
structure Finding where
  tag : String
  location : String
  deriving DecidableEq, Repr

/-- The wording of what is wrong with a tag. -/
def Finding.message (f : Finding) : String :=
  s!"tagged value `{displayTag f.tag}` at `{f.location}` is not supported"

/-- How a location shows a key: a string as it is, any other key by its text, which is
    empty if there is none. -/
def keyText : Tree → String
  | .string s => s
  | t => if t.isWritable then String.ofList (Text.trimEnd t.chars) else ""

mutual

/-- The first tag of a tree at a location. -/
def Tree.findTag (location : String) : Tree → Option Finding
  | .tagged tag _ => some ⟨tag, location⟩
  | .sequence items => Tree.findTagInItems location 0 items
  | .mapping entries => Tree.findTagInEntries location entries
  | _ => none

/-- The first tag of the items of a sequence from an index on. -/
def Tree.findTagInItems (location : String) (index : Nat) : List Tree → Option Finding
  | [] => none
  | item :: items =>
    (item.findTag (Location.item location index)).or
      (Tree.findTagInItems location (index + 1) items)

/-- The first tag of the entries of a mapping, in a key or in a value. -/
def Tree.findTagInEntries (location : String) : List (Tree × Tree) → Option Finding
  | [] => none
  | (key, value) :: entries =>
    let here := Location.entry location (keyText key)
    ((key.findTag here).or (value.findTag here)).or (Tree.findTagInEntries location entries)

end

end SchemaEmbed.Yaml
