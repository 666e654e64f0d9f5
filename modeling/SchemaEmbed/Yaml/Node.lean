import SchemaEmbed.Yaml.Cursor
import SchemaEmbed.Yaml.Token

namespace SchemaEmbed.Yaml

/-!
# The nodes of a document

* `Node` — what a document consists of, with aliases not yet followed; an alias refers to
  a node by a name, or by a number once the names are settled;
* `Handles.resolve?` — the tag of a node: its handle is replaced by what it stands for;
* `node` and the functions beside it — the grammar of tokens, one function for each kind
  of collection; every function returns the tokens it did not read;
* `Node.ofTokens?` — the one document of a stream, absent from an empty stream.

The recursion is bounded by a multiple of the number of tokens: at most three calls
follow one another without a token being read.
-/

/-- What can stand before a node. -/
structure Properties where
  anchor : Option String
  tag : Option TagName
  deriving DecidableEq, Repr

/-- No anchor and no tag. -/
def Properties.empty : Properties := ⟨none, none⟩

/-- A node of a document, whose aliases refer to others in the way of `Ref`. -/
inductive Node (Ref : Type) where
  | alias (target : Ref)
  | scalar (properties : Properties) (text : String) (style : Style)
  | sequence (properties : Properties) (items : List (Node Ref))
  | mapping (properties : Properties) (entries : List (Node Ref × Node Ref))
  deriving Repr

/-- The node where nothing is written. -/
def Node.empty {Ref : Type} : Node Ref := .scalar .empty "" .plain

/-! ### Tags -/

/-- What the handles of a document stand for. -/
abbrev Handles := List (String × TagName)

/-- The handles that every document has. -/
def Handles.standard : Handles := [("!", .text "!"), ("!!", .text "tag:yaml.org,2002:")]

/-- The tag of a handle and a suffix; absent if the handle stands for nothing. -/
def Handles.resolve? (handles : Handles) (handle : String) (suffix : TagName) :
    Option TagName :=
  if handle = "" then some suffix
  else (handles.lookup handle).map fun before => before.append suffix

/-! ### The grammar -/

/-- An error in the order of the tokens. -/
def misplaced {α : Type} (reason : String) : Except SyntaxError α := .error ⟨reason, none⟩

/-- Reads the properties of a node: an anchor and a tag in either order. -/
def properties (handles : Handles) (ts : List Token) :
    Except SyntaxError (Properties × List Token) :=
  let resolve (anchor : Option String) (handle : String) (suffix : TagName)
      (rest : List Token) : Except SyntaxError (Properties × List Token) :=
    match handles.resolve? handle suffix with
    | some tag => .ok (⟨anchor, some tag⟩, rest)
    | none => misplaced "found undefined tag handle"
  match ts with
  | .anchor name :: .tag handle suffix :: rest => resolve (some name) handle suffix rest
  | .anchor name :: rest => .ok (⟨some name, none⟩, rest)
  | .tag handle suffix :: .anchor name :: rest => resolve (some name) handle suffix rest
  | .tag handle suffix :: rest => resolve none handle suffix rest
  | rest => .ok (.empty, rest)

/-- Whether a token ends an item of a sequence whose dashes are not indented. -/
def endsItem : List Token → Bool
  | .blockEntry :: _ | .key :: _ | .value :: _ | .blockEnd :: _ => true
  | _ => false

/-- Whether a token ends a key or a value of a block mapping. -/
def endsBlockPart : List Token → Bool
  | .key :: _ | .value :: _ | .blockEnd :: _ => true
  | _ => false

mutual

/-- Reads a node. Only in block context can it be a block collection, and only a part of
    a block mapping can be a sequence whose dashes are not indented. -/
def node (handles : Handles) :
    (fuel : Nat) → (block dashes : Bool) → List Token →
      Except SyntaxError (Node String × List Token)
  | 0, _, _, _ => misplaced "did not find expected node content"
  | fuel + 1, block, dashes, ts =>
    match ts with
    | .alias name :: rest => .ok (.alias name, rest)
    | _ => do
      let (p, ts) ← properties handles ts
      match ts with
      | .blockEntry :: _ =>
        if dashes then
          let (items, rest) ← dashItems handles fuel ts
          return (.sequence p items, rest)
        else if p = .empty then misplaced "did not find expected node content"
        else return (.scalar p "" .plain, ts)
      | .scalar text style :: rest => return (.scalar p text style, rest)
      | .flowSequenceStart :: rest =>
        let (items, rest) ← flowItems handles fuel true rest
        return (.sequence p items, rest)
      | .flowMappingStart :: rest =>
        let (entries, rest) ← flowEntries handles fuel true rest
        return (.mapping p entries, rest)
      | .blockSequenceStart :: rest =>
        if block then
          let (items, rest) ← blockItems handles fuel rest
          return (.sequence p items, rest)
        else if p = .empty then misplaced "did not find expected node content"
        else return (.scalar p "" .plain, ts)
      | .blockMappingStart :: rest =>
        if block then
          let (entries, rest) ← blockEntries handles fuel rest
          return (.mapping p entries, rest)
        else if p = .empty then misplaced "did not find expected node content"
        else return (.scalar p "" .plain, ts)
      | _ =>
        if p = .empty then misplaced "did not find expected node content"
        else return (.scalar p "" .plain, ts)

/-- Reads the items of an indented block sequence and its end. -/
def blockItems (handles : Handles) : (fuel : Nat) → List Token →
      Except SyntaxError (List (Node String) × List Token)
  | 0, _ => misplaced "did not find expected '-' indicator"
  | fuel + 1, ts =>
    match ts with
    | .blockEntry :: rest => do
      let (item, rest) ← match rest with
        | .blockEntry :: _ | .blockEnd :: _ => pure (Node.empty, rest)
        | _ => node handles fuel true false rest
      let (items, rest) ← blockItems handles fuel rest
      return (item :: items, rest)
    | .blockEnd :: rest => .ok ([], rest)
    | _ => misplaced "did not find expected '-' indicator"

/-- Reads the items of a block sequence whose dashes are not indented. -/
def dashItems (handles : Handles) : (fuel : Nat) → List Token →
      Except SyntaxError (List (Node String) × List Token)
  | 0, _ => misplaced "did not find expected '-' indicator"
  | fuel + 1, ts =>
    match ts with
    | .blockEntry :: rest => do
      let (item, rest) ←
        if endsItem rest then pure (Node.empty, rest) else node handles fuel true false rest
      let (items, rest) ← dashItems handles fuel rest
      return (item :: items, rest)
    | _ => .ok ([], ts)

/-- Reads the entries of a block mapping and its end. -/
def blockEntries (handles : Handles) :
    (fuel : Nat) → List Token →
      Except SyntaxError (List (Node String × Node String) × List Token)
  | 0, _ => misplaced "did not find expected key"
  | fuel + 1, ts =>
    match ts with
    | .key :: rest => do
      let (key, rest) ←
        if endsBlockPart rest then pure (Node.empty, rest) else node handles fuel true true rest
      let (value, rest) ← match rest with
        | .value :: rest =>
          if endsBlockPart rest then pure (Node.empty, rest)
          else node handles fuel true true rest
        | _ => pure (Node.empty, rest)
      let (entries, rest) ← blockEntries handles fuel rest
      return ((key, value) :: entries, rest)
    | .blockEnd :: rest => .ok ([], rest)
    | _ => misplaced "did not find expected key"

/-- Reads the items of a flow sequence and its end. An item with a key is a mapping of
    one entry. -/
def flowItems (handles : Handles) :
    (fuel : Nat) → (first : Bool) → List Token →
      Except SyntaxError (List (Node String) × List Token)
  | 0, _, _ => misplaced "did not find expected ',' or ']'"
  | fuel + 1, first, ts =>
    match ts with
    | .flowSequenceEnd :: rest => .ok ([], rest)
    | _ => do
      let ts ← if first then pure ts else
        match ts with
        | .flowEntry :: rest => pure rest
        | _ => misplaced "did not find expected ',' or ']'"
      match ts with
      | .flowSequenceEnd :: rest => return ([], rest)
      | .key :: rest =>
        let (key, rest) ← match rest with
          -- The token that stands in place of the key is passed over.
          | .value :: rest | .flowEntry :: rest | .flowSequenceEnd :: rest =>
            pure (Node.empty, rest)
          | _ => node handles fuel false false rest
        let (value, rest) ← match rest with
          | .value :: rest =>
            match rest with
            | .flowEntry :: _ | .flowSequenceEnd :: _ => pure (Node.empty, rest)
            | _ => node handles fuel false false rest
          | _ => pure (Node.empty, rest)
        let (items, rest) ← flowItems handles fuel false rest
        return (.mapping .empty [(key, value)] :: items, rest)
      | _ =>
        let (item, rest) ← node handles fuel false false ts
        let (items, rest) ← flowItems handles fuel false rest
        return (item :: items, rest)

/-- Reads the entries of a flow mapping and its end. A node without a key indicator is a
    key with nothing as its value. -/
def flowEntries (handles : Handles) :
    (fuel : Nat) → (first : Bool) → List Token →
      Except SyntaxError (List (Node String × Node String) × List Token)
  | 0, _, _ => misplaced "did not find expected ',' or '\x7d'"
  | fuel + 1, first, ts =>
    match ts with
    | .flowMappingEnd :: rest => .ok ([], rest)
    | _ => do
      let ts ← if first then pure ts else
        match ts with
        | .flowEntry :: rest => pure rest
        | _ => misplaced "did not find expected ',' or '\x7d'"
      match ts with
      | .flowMappingEnd :: rest => return ([], rest)
      | .key :: rest =>
        let (key, rest) ← match rest with
          | .value :: _ | .flowEntry :: _ | .flowMappingEnd :: _ => pure (Node.empty, rest)
          | _ => node handles fuel false false rest
        let (value, rest) ← match rest with
          | .value :: rest =>
            match rest with
            | .flowEntry :: _ | .flowMappingEnd :: _ => pure (Node.empty, rest)
            | _ => node handles fuel false false rest
          | _ => pure (Node.empty, rest)
        let (entries, rest) ← flowEntries handles fuel false rest
        return ((key, value) :: entries, rest)
      | _ =>
        let (key, rest) ← node handles fuel false false ts
        let (entries, rest) ← flowEntries handles fuel false rest
        return ((key, Node.empty) :: entries, rest)

end

/-! ### Documents -/

/-- Reads the directives before a document. -/
def directives : (versioned : Bool) → Handles → List Token →
      Except SyntaxError (Handles × List Token)
  | versioned, handles, .versionDirective major minor :: rest =>
    if versioned then misplaced "found duplicate %YAML directive"
    else if major = 1 ∧ (minor = 1 ∨ minor = 2) then directives true handles rest
    else misplaced "found incompatible YAML document"
  | versioned, handles, .tagDirective handle target :: rest =>
    if (handles.lookup handle).isSome then misplaced "found duplicate %TAG directive"
    else directives versioned ((handle, target) :: handles) rest
  | _, handles, rest => .ok (handles ++ Handles.standard, rest)

/-- Whether nothing is written in a document that was opened by its indicator. -/
def endsDocument : List Token → Bool
  | .versionDirective .. :: _ | .tagDirective .. :: _ | .documentStart :: _
  | .documentEnd :: _ | .streamEnd :: _ | [] => true
  | _ => false

/-- A bound of the recursion for these tokens. -/
def grammarFuel (ts : List Token) : Nat := 4 * ts.length + 8

/-- Reads the first document of a stream. -/
def firstDocument (ts : List Token) :
    Except SyntaxError (Node String × List Token) :=
  match ts with
  | .versionDirective .. :: _ | .tagDirective .. :: _ | .documentStart :: _ => do
    let (handles, rest) ← directives false [] ts
    match rest with
    | .documentStart :: rest =>
      if endsDocument rest then return (.empty, rest)
      else node handles (grammarFuel rest) true false rest
    | _ => misplaced "did not find expected <document start>"
  | _ => node Handles.standard (grammarFuel ts) true false ts

/-- The document of a stream that holds at most one. -/
def Node.ofTokens? (ts : List Token) : Except SyntaxError (Option (Node String)) :=
  match ts with
  | [.streamEnd] => .ok none
  | _ => do
    let (root, rest) ← firstDocument ts
    match rest.dropWhile (· == .documentEnd) with
    | [.streamEnd] => return some root
    | _ => misplaced "deserializing from YAML containing more than one document"

end SchemaEmbed.Yaml
