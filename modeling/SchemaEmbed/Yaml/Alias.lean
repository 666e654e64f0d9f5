import SchemaEmbed.Yaml.Node
import SchemaEmbed.Yaml.Plain
import SchemaEmbed.Yaml.Token.Stream

namespace SchemaEmbed.Yaml

/-!
# Following aliases

* `Node.link` — settles which anchor an alias means: the last one of its name that was
  given before it. An anchor's number is the count of different names given before it,
  so a name that is given again takes a new number; of anchors with one number the last
  one counts;
* `Tree.ofScalar` — the meaning of a scalar;
* `Tree.ofNode` — the meaning of a node, with aliases followed. At most 128 collections
  are open at once, and aliases are followed at most a hundred times as often as the
  document has events (`Node.events`), so every document is read in the end;
* `load` — the tree of a text.
-/

/-! ### Anchors -/

/-- The numbers of the anchors given so far, by name. -/
abbrev Anchors := List (String × Nat)

/-- Numbers an anchor and makes its name mean that number from here on. -/
def Anchors.give (anchors : Anchors) (name : String) : Nat × Anchors :=
  (anchors.length, (name, anchors.length) :: anchors.filter fun a => a.1 != name)

/-- Nodes that aliases can refer to, by number, in the order in which they begin. -/
abbrev Targets := List (Nat × Node Nat)

/-- The last target with a number. -/
def Targets.find? (targets : Targets) (n : Nat) : Option (Node Nat) := targets.reverse.lookup n

/-- Numbers the anchor among the properties of a node, if there is one. -/
def Anchors.giveTo (anchors : Anchors) (p : Properties) : Option Nat × Anchors :=
  match p.anchor with
  | some name => (anchors.give name).map some id
  | none => (none, anchors)

/-- A node with its number as a target. -/
def Targets.ofNode (number : Option Nat) (node : Node Nat) : Targets :=
  match number with
  | some n => [(n, node)]
  | none => []

mutual

/-- A node whose aliases refer by number, its targets, and the anchors after it. -/
def Node.link (anchors : Anchors) :
    Node String → Except SyntaxError (Node Nat × Targets × Anchors)
  | .alias name =>
    match anchors.lookup name with
    | some n => .ok (.alias n, [], anchors)
    | none => .error ⟨"unknown anchor", none⟩
  | .scalar p text style =>
    let (number, anchors) := anchors.giveTo p
    let node := .scalar p text style
    .ok (node, .ofNode number node, anchors)
  | .sequence p items => do
    let (number, anchors) := anchors.giveTo p
    let (items, targets, anchors) ← Node.linkItems anchors items
    let node := .sequence p items
    return (node, Targets.ofNode number node ++ targets, anchors)
  | .mapping p entries => do
    let (number, anchors) := anchors.giveTo p
    let (entries, targets, anchors) ← Node.linkEntries anchors entries
    let node := .mapping p entries
    return (node, Targets.ofNode number node ++ targets, anchors)

/-- The items of a sequence one after the other. -/
def Node.linkItems (anchors : Anchors) :
    List (Node String) → Except SyntaxError (List (Node Nat) × Targets × Anchors)
  | [] => .ok ([], [], anchors)
  | node :: rest => do
    let (node, targets, anchors) ← node.link anchors
    let (nodes, others, anchors) ← Node.linkItems anchors rest
    return (node :: nodes, targets ++ others, anchors)

/-- The entries of a mapping one after the other, the key before the value. -/
def Node.linkEntries (anchors : Anchors) :
    List (Node String × Node String) →
      Except SyntaxError (List (Node Nat × Node Nat) × Targets × Anchors)
  | [] => .ok ([], [], anchors)
  | (key, value) :: rest => do
    let (key, keyTargets, anchors) ← key.link anchors
    let (value, valueTargets, anchors) ← value.link anchors
    let (entries, others, anchors) ← Node.linkEntries anchors rest
    return ((key, value) :: entries, keyTargets ++ valueTargets ++ others, anchors)

end

mutual

/-- The number of events of a node: one for an alias or a scalar, and one for each end of
    a collection. -/
def Node.events : Node Nat → Nat
  | .alias _ => 1
  | .scalar .. => 1
  | .sequence _ items => Node.eventsOfItems items + 2
  | .mapping _ entries => Node.eventsOfEntries entries + 2

/-- The number of events of the items. -/
def Node.eventsOfItems : List (Node Nat) → Nat
  | [] => 0
  | node :: rest => node.events + Node.eventsOfItems rest

/-- The number of events of the entries. -/
def Node.eventsOfEntries : List (Node Nat × Node Nat) → Nat
  | [] => 0
  | (key, value) :: rest => key.events + value.events + Node.eventsOfEntries rest

end

/-! ### Scalars with and without tags -/

/-- A tag of the document's own, which a tree keeps; it begins with an exclamation mark,
    which is left out unless it is all there is. A lone exclamation mark is a tag like any
    other, before a scalar as well as before a collection: what is written `! 1` is not
    the number but the number with the tag `!`. -/
def Properties.ownTag? (p : Properties) : Option String :=
  match p.tag with
  | some (.text name) =>
    match name.toList with
    | '!' :: c :: rest => some (String.ofList (c :: rest))
    | ['!'] => some name
    | _ => none
  | _ => none

/-- An error in the meaning of a document. -/
def unreadable {α : Type} (reason : String) : Except SyntaxError α := .error ⟨reason, none⟩

/-- The meaning of a scalar without regard to a tag: only a plain one is resolved. -/
def Tree.ofUntagged (text : String) (style : Style) : Except SyntaxError Tree :=
  if style = .plain then
    match resolvePlain text.toList with
    | some t => .ok t
    | none => unreadable "integer out of range"
  else .ok (.string text)

/-- The meaning of a scalar. A tag of the core schema forces its type, any other tag that
    is not the document's own makes it a string. -/
def Tree.ofScalar (tag : Option TagName) (text : String) (style : Style) :
    Except SyntaxError Tree :=
  match tag with
  | none => Tree.ofUntagged text style
  | some (.unreadable isLocal) => if isLocal then Tree.ofUntagged text style else .ok (.string text)
  | some (.text name) =>
    let s := text.toList
    if name = "tag:yaml.org,2002:bool" then
      match readBool s with
      | some b => .ok (.bool b)
      | none => unreadable "invalid value: expected a boolean"
    else if name = "tag:yaml.org,2002:int" then
      match readInt s with
      | .value i => .ok (.number (.int i))
      | _ => unreadable "invalid value: expected an integer"
    else if name = "tag:yaml.org,2002:float" then
      match readFloat s with
      | some x => .ok (.number (.float x))
      | none => unreadable "invalid value: expected a float"
    else if name = "tag:yaml.org,2002:null" then
      if isNullWord s then .ok .null else unreadable "invalid value: expected null"
    else .ok (.string text)

/-! ### The meaning of nodes -/

/-- Reading with a count of the aliases that have been followed. -/
abbrev Reading := StateT Nat (Except SyntaxError)

/-- How many collections may be open at once. -/
def maxOpen : Nat := 128

/-- How often aliases may be followed for each event of a document. -/
def aliasesPerEvent : Nat := 100

/-- What aliases refer to and how often they may be followed. -/
structure Links where
  targets : Targets
  limit : Nat

/-- The node that an alias refers to; every other node stands for itself. -/
def Links.follow (links : Links) : Node Nat → Reading (Node Nat)
  | .alias n => do
    let used ← get
    if links.limit ≤ used then unreadable "repetition limit exceeded"
    else
      set (used + 1)
      match links.targets.find? n with
      | some node => return node
      | none => unreadable "unresolved alias"
  | node => return node

/-- Puts the tag of the document's own, if there is one, around a tree. -/
def Properties.wrap (p : Properties) (t : Tree) : Tree :=
  match p.ownTag? with
  | some tag => .tagged tag t
  | none => t

/-- The first key that an earlier entry has already. -/
def findRepeatedKey : (before entries : List (Tree × Tree)) → Option Tree
  | _, [] => none
  | before, (k, v) :: rest =>
    if Tree.hasKey k before then some k else findRepeatedKey ((k, v) :: before) rest

/-- The meaning of a node inside of which `depth` more collections may be open at once.
    A key must not be repeated within a mapping. -/
def Tree.ofNode (links : Links) : (depth : Nat) → Node Nat → Reading Tree
  | depth, node => do
    match ← links.follow node with
    | .alias _ => unreadable "unresolved alias"
    | .scalar p text style =>
      match p.ownTag? with
      | some tag => return .tagged tag (← Tree.ofUntagged text style)
      | none => Tree.ofScalar p.tag text style
    | .sequence p items =>
      match depth with
      | 0 => unreadable "recursion limit exceeded"
      | depth + 1 =>
        let items ← items.mapM (Tree.ofNode links depth)
        return p.wrap (.sequence items)
    | .mapping p entries =>
      match depth with
      | 0 => unreadable "recursion limit exceeded"
      | depth + 1 =>
        let entries ← entries.mapM fun (key, value) => do
          let key ← Tree.ofNode links depth key
          let value ← Tree.ofNode links depth value
          return (key, value)
        match findRepeatedKey [] entries with
        | some _ => unreadable "duplicate entry"
        | none => return p.wrap (.mapping entries)

/-- The tree of a text; nothing written means null. -/
def load (text : String) : Except SyntaxError Tree := do
  match ← Node.ofTokens? (← tokenize text.toList) with
  | none => return .null
  | some root =>
    let (root, targets, _) ← root.link []
    let links : Links := ⟨targets, aliasesPerEvent * root.events⟩
    let (t, _) ← (Tree.ofNode links maxOpen root).run 0
    return t

end SchemaEmbed.Yaml
