import SchemaEmbed.Value

namespace SchemaEmbed.Yaml

/-!
# Trees of YAML

What a document means once its aliases are followed and its scalars are read. A tree is
richer than a structured value: a mapping can have keys of any kind, and a node can carry
a tag of the document's own:

* `Tree` — the tree;
* `Tree.same` — equality of keys: numbers by value within each kind, mappings without
  regard to order;
* `Tree.size` — the number of nodes;
* `displayTag` — how a message shows a tag.
-/

/-- A tree of a document. -/
inductive Tree where
  | null
  | bool (b : Bool)
  | number (n : Number)
  | string (s : String)
  | sequence (items : List Tree)
  | mapping (entries : List (Tree × Tree))
  /-- A node with a tag of the document's own, without its exclamation mark. -/
  | tagged (tag : String) (content : Tree)
  deriving Inhabited

/-- The name of a tag without an exclamation mark before it, which alone is a name. -/
def tagName (tag : String) : String :=
  match tag.toList with
  | '!' :: c :: rest => String.ofList (c :: rest)
  | _ => tag

/-- How a message shows a tag. -/
def displayTag (tag : String) : String := "!" ++ tagName tag

/-- Whether two numbers are the same key. Unlike in arithmetic, what is no number equals
    itself. -/
def sameKeyNumber : Number → Number → Bool
  | .float x, .float y => x.sameNumber y || (x.isNaN && y.isNaN)
  | m, n => m.same n

mutual

/-- Whether two trees are the same key. -/
def Tree.same : Tree → Tree → Bool
  | .null, .null => true
  | .bool a, .bool b => a == b
  | .number m, .number n => sameKeyNumber m n
  | .string s, .string t => s == t
  | .sequence xs, .sequence ys => Tree.sameItems xs ys
  | .mapping xs, .mapping ys => xs.length == ys.length && Tree.sameEntries xs ys
  | .tagged s x, .tagged t y => tagName s == tagName t && x.same y
  | _, _ => false

/-- Sequences agree item by item. -/
def Tree.sameItems : List Tree → List Tree → Bool
  | [], [] => true
  | x :: xs, y :: ys => x.same y && Tree.sameItems xs ys
  | _, _ => false

/-- Every entry of the first list has an equal entry in the second. -/
def Tree.sameEntries : List (Tree × Tree) → List (Tree × Tree) → Bool
  | [], _ => true
  | (k, v) :: rest, ys => Tree.hasEntry k v ys && Tree.sameEntries rest ys

/-- Whether some entry has this key and this value. -/
def Tree.hasEntry (k v : Tree) : List (Tree × Tree) → Bool
  | [] => false
  | (k', v') :: rest => (k.same k' && v.same v') || Tree.hasEntry k v rest

end

/-- Whether some entry has this key. -/
def Tree.hasKey (key : Tree) (entries : List (Tree × Tree)) : Bool :=
  entries.any fun e => key.same e.1

mutual

/-- The number of nodes, an entry of a mapping counted as one. -/
def Tree.size : Tree → Nat
  | .sequence items => Tree.sizeItems items + 1
  | .mapping entries => Tree.sizeEntries entries + 1
  | .tagged _ content => content.size + 1
  | _ => 1

/-- The number of nodes of the items. -/
def Tree.sizeItems : List Tree → Nat
  | [] => 0
  | t :: rest => t.size + Tree.sizeItems rest

/-- The number of nodes of the entries. -/
def Tree.sizeEntries : List (Tree × Tree) → Nat
  | [] => 0
  | (k, v) :: rest => k.size + v.size + 1 + Tree.sizeEntries rest

end

end SchemaEmbed.Yaml
